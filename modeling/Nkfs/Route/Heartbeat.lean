import Nkfs.Route.Release

/-!
# Heartbeats

A host that is asked for a heartbeat walks its neighbours and reports the addresses of those that
answered their own last heartbeat. For each it compares the id behind `neigh->hid`, and a neighbour that
was added by address has none until its handshake is through. The answer is safe exactly if the
request is refused before the walk or every neighbour the walk comes to has a host id
(`HostOk.hbtSafe_iff`); `Answerable` says so of the table before the request.

Histories are sequences of added neighbours, handshakes and heartbeats in both directions. The
invariant of lifetimes holds after each of them, so the condition decides in every state reached.
-/

namespace Nkfs

open Lib.Program Lib.SearchTree List

/-! ### The program -/

/-- Source: `include/nkfs_net.h` `struct nkfs_net_peer` -/
structure NetPeer where
  ip : UInt32
  port : ℤ
  deriving DecidableEq

/-- Source: `include/nkfs_net.h` `u.neigh_heartbeat` of a request -/
structure HbtReq where
  srcNetId : ObjId
  srcHostId : ObjId
  dstHostId : ObjId

/-- Source: `core/route.c` `nkfs_host_id_lookup` -/
def hostIdLookup (id : ObjId) : R (Option ℕ) := do
  match ← hostIdsLookup id with
  | none => return none
  | some q =>
    hidRef q
    return some q

/-- `neigh->hid->host_id`. There is nothing to read behind a null pointer. -/
def readHostId : Option ℕ → R ObjId
  | none => stop .freed
  | some q => do
    let d ← readHid q
    return d.hostId

/-- The loop of `nkfs_neigh_heartbeat`; `room` entries are left in the reply. -/
def replyNeighs (own src : ObjId) : ℕ → List ℕ → R (List NetPeer)
  | _, [] => return []
  | 0, _ :: _ => return []
  | room + 1, p :: ps => do
    let n ← readNeigh p
    let id ← readHostId n.hid
    if objIdCmp id own ≠ .eq ∧ objIdCmp id src ≠ .eq ∧ n.state.hbtOk then do
      let rest ← replyNeighs own src room ps
      return ⟨n.ip, n.port⟩ :: rest
    else replyNeighs own src (room + 1) ps

/-- The host id and the neighbours of the reply, or the error.
Source: `core/route.c` `nkfs_neigh_heartbeat` -/
def neighHeartbeat (rb : Balancer ℕ) (req : HbtReq) (replyMaxNeighs : ℕ) :
    R (Except Errno (ObjId × List NetPeer)) := do
  let h ← get
  if objIdCmp req.srcNetId h.netId ≠ .eq then return .error .einval
  else if objIdCmp req.dstHostId h.hostId ≠ .eq then return .error .einval
  else
    match ← hostIdLookup req.srcHostId with
    | none => return .error .einval
    | some q => do
      let peers ← replyNeighs h.hostId req.srcHostId replyMaxNeighs h.neighList
      if peers.length > replyMaxNeighs then stop .bug
      else do
        hidDeref rb q
        return .ok (h.hostId, peers)

/-- How far an outbound heartbeat gets: the connection fails, a packet cannot be allocated, or the
request is sent and `talk` is what sending and receiving give, or the error of the reply. -/
inductive HbtIo where
  | connect (err : Errno)
  | nomem
  | talk (reply : Except Errno (List NetPeer))

/-- The loop of `nkfs_neigh_do_heartbeat` over the neighbours of the reply. -/
def addPeers (rb : Balancer ℕ) : List NetPeer → R Unit
  | [] => return ()
  | x :: xs => do
    let _ ← neighAdd rb x.ip x.port
    addPeers rb xs

/-- The end of an outbound heartbeat with an error. -/
def hbtFailed (p : ℕ) (err : Errno) : R (Except Errno Unit) := do
  let n ← readNeigh p
  writeNeigh p { n with state := { n.state with hbtOk := false } }
  return .error err

/-- `start` and `now` are the times read at the beginning and at the end. Without memory for a packet
`err` is still the 0 of the connection. Source: `core/route.c` `nkfs_neigh_do_heartbeat` -/
def neighDoHeartbeat (rb : Balancer ℕ) (start now : UInt64) (io : HbtIo) (p : ℕ) : R (Except Errno Unit) := do
  let n ← readNeigh p
  if n.state.inited = false ∨ n.state.shaked = false then return .ok ()
  else do
    writeNeigh p { n with hbtTime := start }
    match io with
    | .connect err => hbtFailed p err
    | .nomem => return .ok ()
    | .talk reply => do
      let _ ← readHostId n.hid
      match reply with
      | .error err => hbtFailed p err
      | .ok peers => do
        addPeers rb peers
        let n ← readNeigh p
        writeNeigh p { n with state := { n.state with hbtOk := true }, hbtDelay := now - n.hbtTime }
        return .ok ()

/-! ### Histories -/

/-- What can happen to a host. An outbound heartbeat is made with the neighbour at place `i` of
`host->neigh_list`. -/
inductive HbtOp where
  | life (op : LifeOp)
  | inbound (req : HbtReq) (replyMaxNeighs : ℕ)
  | outbound (i : ℕ) (start now : UInt64) (io : HbtIo)

def HbtOp.run (rb : Balancer ℕ) : HbtOp → R Unit
  | .life op => op.run rb
  | .inbound req replyMaxNeighs => do
    let _ ← neighHeartbeat rb req replyMaxNeighs
    return ()
  | .outbound i start now io => do
    let h ← get
    match h.neighList[i]? with
    | none => return ()
    | some p =>
      let _ ← neighDoHeartbeat rb start now io p
      return ()

def HbtOp.runAll (rb : Balancer ℕ) : List HbtOp → R Unit
  | [] => return ()
  | op :: ops => do
    op.run rb
    HbtOp.runAll rb ops

/-! ### What the walk should do -/

/-- The neighbour has a host id. -/
def Host.Attached (h : Host) (p : ℕ) : Prop := ((h.neighMem p).bind Neigh.hid).isSome

/-- The neighbour is one to report to `src`. -/
def Host.Reports (h : Host) (src : ObjId) (p : ℕ) : Prop :=
  (h.info p).hostId ≠ h.hostId ∧ (h.info p).hostId ≠ src ∧ (h.info p).state.hbtOk = true

instance (h : Host) (src : ObjId) (p : ℕ) : Decidable (h.Reports src p) :=
  inferInstanceAs (Decidable (_ ∧ _ ∧ _))

/-- Every neighbour that the walk comes to, with room for `max` in the reply, has a host id. -/
def Host.Walkable (h : Host) (src : ObjId) (max : ℕ) (ps : List ℕ) : Prop :=
  ∀ l₁ p l₂, ps = l₁ ++ p :: l₂ → l₁.countP (h.Reports src ·) < max → h.Attached p

/-- The request is refused before the walk. -/
def Host.Refuses (h : Host) (req : HbtReq) : Prop :=
  req.srcNetId ≠ h.netId ∨ req.dstHostId ≠ h.hostId ∨ ∀ q d, h.hidMem q = some d → d.hostId ≠ req.srcHostId

/-- The table can be walked for the request, or need not be. -/
def Host.Answerable (h : Host) (req : HbtReq) (max : ℕ) : Prop :=
  h.Refuses req ∨ h.Walkable req.srcHostId max h.neighList

/-- An answer with 0 reports at most `max` entries, each the address of a neighbour to report. -/
def HbtAnswer (h : Host) (src : ObjId) (max : ℕ) (peers : List NetPeer) : Prop :=
  peers.length ≤ max ∧ ∀ x ∈ peers, ∃ p ∈ h.neighList, h.Attached p ∧ h.Reports src p ∧
    x = ⟨(h.info p).ip, (h.info p).port⟩

/-- The request is answered without following a null pointer, and as it should be. -/
def HbtSafe (rb : Balancer ℕ) (h : Host) (req : HbtReq) (max : ℕ) : Prop :=
  Runs (neighHeartbeat rb req max) h fun r _ => ∀ id peers, r = .ok (id, peers) →
    HbtAnswer h req.srcHostId max peers

section

variable {h h' : Host} {p q : ℕ} {ps : List ℕ} {n : Neigh} {d : HostId} {rb : Balancer ℕ} {src : ObjId}
  {max : ℕ} {req : HbtReq}

/-! ### The walk -/

lemma Host.attached_iff (hn : h.neighMem p = some n) : h.Attached p ↔ n.hid.isSome := by
  rw [Host.Attached, hn, Option.bind_some]

lemma Host.walkable_nil : h.Walkable src max [] := by
  intro l₁ p l₂ heq
  simp at heq

lemma Host.walkable_zero : h.Walkable src 0 ps := fun _ _ _ _ hlt => absurd hlt (Nat.not_lt_zero _)

/-- One step of the walk. -/
lemma Host.walkable_cons : h.Walkable src (max + 1) (p :: ps) ↔
    h.Attached p ∧ h.Walkable src (if h.Reports src p then max else max + 1) ps := by
  constructor
  · intro hw
    refine ⟨hw [] p ps rfl (Nat.succ_pos _), fun l₁ p' l₂ heq hlt => ?_⟩
    refine hw (p :: l₁) p' l₂ (by rw [heq, cons_append]) ?_
    rw [countP_cons]
    split_ifs at hlt ⊢ <;> simp_all
  · rintro ⟨hp, hw⟩ l₁ p' l₂ heq hlt
    cases l₁ with
    | nil =>
      obtain ⟨rfl, -⟩ := cons.inj heq
      exact hp
    | cons x l₁ =>
      obtain ⟨rfl, htail⟩ := cons.inj heq
      refine hw l₁ p' l₂ htail ?_
      rw [countP_cons] at hlt
      split_ifs at hlt ⊢ <;> simp_all

/-- The neighbours are in memory, and so are the host ids they are attached to. -/
def Host.Live (h : Host) (ps : List ℕ) : Prop :=
  ∀ p ∈ ps, ∃ n, h.neighMem p = some n ∧ ∀ q, n.hid = some q → (h.hidMem q).isSome

lemma HostOk.live (hok : HostOk h) : h.Live h.neighList := fun p hp => by
  obtain ⟨n, hn⟩ := hok.neighs.exists_neigh hp
  exact ⟨n, hn, hok.hids.attached p n hn⟩

lemma readHostId_run (hlive : ∀ q, n.hid = some q → (h.hidMem q).isSome) (hsome : n.hid.isSome) :
    readHostId n.hid h = .ok (h.idOf n.hid, h) := by
  obtain ⟨q, hq⟩ := Option.isSome_iff_exists.mp hsome
  obtain ⟨d, hd⟩ := Option.isSome_iff_exists.mp (hlive q hq)
  rw [hq, readHostId, run_bind_ok (readHid_run hd), Host.idOf, Option.bind_some, hd]
  rfl

/-- One round of the loop, at a neighbour with a host id. -/
lemma replyNeighs_cons (src : ObjId) (max : ℕ) (ps : List ℕ) (hn : h.neighMem p = some n)
    (hlive : ∀ q, n.hid = some q → (h.hidMem q).isSome) (hsome : n.hid.isSome) : replyNeighs h.hostId src (max + 1) (p :: ps) h =
      if h.Reports src p then (do
        let rest ← replyNeighs h.hostId src max ps
        return ⟨(h.info p).ip, (h.info p).port⟩ :: rest : R (List NetPeer)) h
      else replyNeighs h.hostId src (max + 1) ps h := by
  have hiff : (objIdCmp (h.idOf n.hid) h.hostId ≠ .eq ∧ objIdCmp (h.idOf n.hid) src ≠ .eq ∧
      n.state.hbtOk = true) ↔ h.Reports src p := by
    rw [Host.Reports, Host.info_eq hn, Ne, objIdCmp_eq_iff, Ne, objIdCmp_eq_iff]
  rw [replyNeighs, run_bind_ok (readNeigh_run hn), run_bind_ok (readHostId_run hlive hsome), Host.info_eq hn]
  by_cases hr : h.Reports src p
  · rw [if_pos (hiff.mpr hr), if_pos hr]
  · rw [if_neg (mt hiff.mp hr), if_neg hr]

/-- **The walk over neighbours with host ids** fills the reply with neighbours to report. -/
theorem replyNeighs_ok (hlive : h.Live ps) (hw : h.Walkable src max ps) :
    Runs (replyNeighs h.hostId src max ps) h fun peers h' => h' = h ∧ peers.length ≤ max ∧
      ∀ x ∈ peers, ∃ p ∈ ps, h.Attached p ∧ h.Reports src p ∧ x = ⟨(h.info p).ip, (h.info p).port⟩ := by
  induction ps generalizing max with
  | nil =>
    rw [replyNeighs]
    exact Runs.pure ⟨rfl, Nat.zero_le _, nofun⟩
  | cons p ps ih =>
    cases max with
    | zero =>
      rw [replyNeighs]
      exact Runs.pure ⟨rfl, Nat.zero_le _, nofun⟩
    | succ max =>
      obtain ⟨hatt, hw⟩ := Host.walkable_cons.mp hw
      obtain ⟨n, hn, hids⟩ := hlive p (List.mem_cons_self ..)
      have hround := replyNeighs_cons src max ps hn hids ((Host.attached_iff hn).mp hatt)
      have hrest := ih (fun p' hp' => hlive p' (List.mem_cons_of_mem _ hp')) hw
      by_cases hr : h.Reports src p
      · rw [if_pos hr] at hround hrest
        obtain ⟨peers, h', hrun, rfl, hle, hpeers⟩ := hrest
        refine ⟨_, h', hround.trans (run_bind_ok hrun), rfl, Nat.succ_le_succ hle, fun x hx => ?_⟩
        rcases List.mem_cons.mp hx with rfl | hx
        · exact ⟨p, List.mem_cons_self .., hatt, hr, rfl⟩
        · obtain ⟨p', hp', hx'⟩ := hpeers x hx
          exact ⟨p', List.mem_cons_of_mem _ hp', hx'⟩
      · rw [if_neg hr] at hround hrest
        obtain ⟨peers, h', hrun, rfl, hle, hpeers⟩ := hrest
        refine ⟨peers, h', hround.trans hrun, rfl, hle, fun x hx => ?_⟩
        obtain ⟨p', hp', hx'⟩ := hpeers x hx
        exact ⟨p', List.mem_cons_of_mem _ hp', hx'⟩

/-- **The walk stops at a neighbour without a host id.** -/
theorem replyNeighs_stops (hlive : h.Live ps) (hw : ¬ h.Walkable src max ps) :
    Stops (replyNeighs h.hostId src max ps) h fun _ _ => True := by
  induction ps generalizing max with
  | nil => exact absurd Host.walkable_nil hw
  | cons p ps ih =>
    cases max with
    | zero => exact absurd Host.walkable_zero hw
    | succ max =>
      obtain ⟨n, hn, hids⟩ := hlive p (List.mem_cons_self ..)
      by_cases hatt : h.Attached p
      · have hround := replyNeighs_cons src max ps hn hids
          ((Host.attached_iff hn).mp hatt)
        have hrest := ih (fun p' hp' => hlive p' (List.mem_cons_of_mem _ hp'))
          fun hw' => hw (Host.walkable_cons.mpr ⟨hatt, hw'⟩)
        by_cases hr : h.Reports src p
        · rw [if_pos hr] at hround hrest
          obtain ⟨e, h', hrun, -⟩ := hrest
          exact ⟨e, h', hround.trans (run_bind_error hrun), trivial⟩
        · rw [if_neg hr] at hround hrest
          obtain ⟨e, h', hrun, -⟩ := hrest
          exact ⟨e, h', hround.trans hrun, trivial⟩
      · have hnone : n.hid = none := Option.not_isSome_iff_eq_none.mp (mt (Host.attached_iff hn).mpr hatt)
        refine ⟨.freed, h, ?_, trivial⟩
        rw [replyNeighs, run_bind_ok (readNeigh_run hn), hnone]
        rfl

/-! ### The answer -/

lemma HidStep.attached_iff (hs : HidStep h h') : h'.Attached p ↔ h.Attached p := by
  rw [Host.Attached, Host.Attached, hs.neighMem]

lemma HidStep.reports_iff (hs : HidStep h h') : h'.Reports src p ↔ h.Reports src p := by
  rw [Host.Reports, Host.Reports, hs.info, hs.hostId]

/-- The walk sees only the entries and the ids behind them. -/
lemma HidStep.walkable_iff (hs : HidStep h h') : h'.Walkable src max ps ↔ h.Walkable src max ps := by
  unfold Host.Walkable
  simp only [hs.attached_iff, hs.reports_iff]

lemma HidStep.hbtAnswer (hs : HidStep h h') {peers : List NetPeer} (ha : HbtAnswer h' src max peers) :
    HbtAnswer h src max peers := by
  refine ⟨ha.1, fun x hx => ?_⟩
  obtain ⟨p, hp, hatt, hrep, rfl⟩ := ha.2 x hx
  rw [hs.info]
  exact ⟨p, hs.neighList ▸ hp, hs.attached_iff.mp hatt, hs.reports_iff.mp hrep, rfl⟩

/-- One more reference on a host id. -/
lemma HostOk.live_setRef (hok : HostOk h) (hd : h.hidMem q = some d) (r : ℕ) :
    (h.setHid q (some { d with ref := r })).Live h.neighList := by
  intro p hp
  obtain ⟨n, hn, hids⟩ := hok.live p hp
  refine ⟨n, hn, fun q' hq' => ?_⟩
  rw [Host.isSome_setHid hd]
  exact hids q' hq'

lemma hostIdLookup_none (hok : HostOk h) {id : ObjId} (hid : ∀ q d, h.hidMem q = some d → d.hostId ≠ id) :
    hostIdLookup id h = .ok (none, h) := by
  have hlookup := hostIdsLookup_of_notMem (fun q hq => (hok.hids.live q).mpr hq) fun q d _ hd => hid q d hd
  rw [hostIdLookup, run_bind_ok hlookup]
  rfl

lemma hostIdLookup_some (hok : HostOk h) (hd : h.hidMem q = some d) :
    hostIdLookup d.hostId h = .ok (some q, h.setHid q (some { d with ref := d.ref + 1 })) := by
  have hmem : q ∈ h.hostIds.toList := (hok.hids.live q).mp (by rw [hd]; rfl)
  have hlookup := hostIdsLookup_of_mem hok.hids.sorted (fun q hq => (hok.hids.live q).mpr hq) hmem hd
  rw [hostIdLookup, run_bind_ok hlookup]
  exact run_bind_ok (hidRef_run hd (hok.hids.pos q d hd))

/-- The reference taken by the lookup is dropped again. -/
lemma hidDeref_lookup (hok : HostOk h) (hd : h.hidMem q = some d) :
    hidDeref rb q (h.setHid q (some { d with ref := d.ref + 1 })) = .ok ((), h) := by
  have hpos := hok.hids.pos q d hd
  rw [hidDeref_run Host.setHid_self (show 1 < d.ref + 1 by omega), Host.setHid_setHid]
  exact congrArg (fun h => Except.ok ((), h)) (Host.setHid_eq_self hd)

/-- A request that is refused. -/
lemma neighHeartbeat_refuses (hok : HostOk h) (hreq : h.Refuses req) :
    neighHeartbeat rb req max h = .ok (.error .einval, h) := by
  rw [neighHeartbeat, run_get]
  by_cases hnet : req.srcNetId = h.netId
  · rw [if_neg (not_not.mpr (objIdCmp_eq_iff.mpr hnet))]
    by_cases hdst : req.dstHostId = h.hostId
    · rw [if_neg (not_not.mpr (objIdCmp_eq_iff.mpr hdst))]
      have hid := (hreq.resolve_left (not_not.mpr hnet)).resolve_left (not_not.mpr hdst)
      exact run_bind_ok (hostIdLookup_none hok hid)
    · rw [if_pos (mt objIdCmp_eq_iff.mp hdst)]
      rfl
  · rw [if_pos (mt objIdCmp_eq_iff.mp hnet)]
    rfl

/-- A request that is not refused walks the table, with one more reference on the sender's id. -/
lemma neighHeartbeat_walks (rb : Balancer ℕ) (max : ℕ) (hok : HostOk h) (hreq : ¬ h.Refuses req) : ∃ q d, h.hidMem q = some d ∧
    neighHeartbeat rb req max h = (do
      let peers ← replyNeighs h.hostId req.srcHostId max h.neighList
      if peers.length > max then stop .bug
      else do
        hidDeref rb q
        return .ok (h.hostId, peers) : R (Except Errno (ObjId × List NetPeer)))
      (h.setHid q (some { d with ref := d.ref + 1 })) := by
  simp only [Host.Refuses, not_or, not_not, not_forall] at hreq
  obtain ⟨hnet, hdst, q, d, hd, hid⟩ := hreq
  refine ⟨q, d, hd, ?_⟩
  rw [neighHeartbeat, run_get, if_neg (not_not.mpr (objIdCmp_eq_iff.mpr hnet)),
    if_neg (not_not.mpr (objIdCmp_eq_iff.mpr hdst)), ← hid]
  exact run_bind_ok (hostIdLookup_some hok hd)

/-- **An answerable request** is answered as it should be and leaves the host as it was. -/
theorem HostOk.neighHeartbeat_ok (hok : HostOk h) (hans : h.Answerable req max) :
    Runs (neighHeartbeat rb req max) h fun r h' => h' = h ∧
      ∀ id peers, r = .ok (id, peers) → HbtAnswer h req.srcHostId max peers := by
  by_cases hreq : h.Refuses req
  · exact Runs.intro (neighHeartbeat_refuses hok hreq) ⟨rfl, nofun⟩
  obtain ⟨q, d, hd, hrun⟩ := neighHeartbeat_walks rb max hok hreq
  have hs : HidStep h (h.setHid q (some { d with ref := d.ref + 1 })) := hidStep_setHid hd rfl
  obtain ⟨peers, h', hwalk, rfl, hle, hpeers⟩ :=
    replyNeighs_ok (hok.live_setRef hd _) (hs.walkable_iff.mpr (hans.resolve_left hreq))
  refine ⟨.ok (h.hostId, peers), h, hrun.trans ((run_bind_ok hwalk).trans ?_), rfl, ?_⟩
  · rw [if_neg (not_lt.mpr hle), run_bind_ok (hidDeref_lookup hok hd)]
    rfl
  · intro id peers' heq
    obtain ⟨rfl, rfl⟩ := Prod.mk.inj (Except.ok.inj heq)
    exact hs.hbtAnswer ⟨hle, hpeers⟩

/-- **Any other request** follows a null pointer. -/
theorem HostOk.neighHeartbeat_stops (hok : HostOk h) (hans : ¬ h.Answerable req max) :
    Stops (neighHeartbeat rb req max) h fun _ _ => True := by
  obtain ⟨hreq, hw⟩ := not_or.mp hans
  obtain ⟨q, d, hd, hrun⟩ := neighHeartbeat_walks rb max hok hreq
  have hs : HidStep h (h.setHid q (some { d with ref := d.ref + 1 })) := hidStep_setHid hd rfl
  obtain ⟨e, h', hwalk, -⟩ := replyNeighs_stops (hok.live_setRef hd _) (mt hs.walkable_iff.mp hw)
  exact ⟨e, h', hrun.trans (run_bind_error hwalk), trivial⟩

lemma HostOk.hbtSafe_iff (hok : HostOk h) : HbtSafe rb h req max ↔ h.Answerable req max := by
  constructor
  · intro hsafe
    by_contra hans
    exact hsafe.not_stops (hok.neighHeartbeat_stops hans)
  · intro hans
    exact (hok.neighHeartbeat_ok hans).mono fun _ _ hr => hr.2

/-! ### Outbound heartbeats -/

/-- The state and the times of a neighbour change, its host id does not. -/
lemma HostOk.setHbt (hok : HostOk h) (hset : AllSettled h) (hp : p ∈ h.neighList) (hn : h.neighMem p = some n)
    (hbtOk : Bool) (time delay : UInt64) :
    HostOk (h.setNeigh p (some { n with
      state := { n.state with hbtOk := hbtOk }, hbtTime := time, hbtDelay := delay })) ∧
    AllSettled (h.setNeigh p (some { n with
      state := { n.state with hbtOk := hbtOk }, hbtTime := time, hbtDelay := delay })) := by
  refine ⟨⟨?_, hok.hids.setNeigh hn rfl rfl⟩, fun p' m hp' hm => ?_⟩
  · exact hok.neighs.setListed tableStep_setNeigh hp hn Host.setNeigh_self (hok.neighs.ref p n hn)
      ((hok.neighs.host p n hn).mpr hp) rfl rfl
  · rcases Host.setNeigh_cases hm with ⟨rfl, rfl⟩ | ⟨-, hm⟩
    · exact hset p' n hp' hn
    · exact hset p' m hp' hm

/-- Adding the neighbours of a reply leaves the entries there are as they were. -/
lemma addPeers_spec (hok : HostOk h) (hset : AllSettled h) (hp : p ∈ h.neighList) (xs : List NetPeer) :
    Runs (addPeers rb xs) h fun _ h' => HostOk h' ∧ AllSettled h' ∧ p ∈ h'.neighList ∧
      h'.neighMem p = h.neighMem p := by
  induction xs generalizing h with
  | nil => exact Runs.pure ⟨hok, hset, hp, rfl⟩
  | cons x xs ih =>
    refine (neighAdd_spec hok).bind fun _ h₁ ⟨hok₁, hgrew, _⟩ => ?_
    have hlater : Later (fun _ => True) h h₁ := hgrew.later hset
    refine (ih hok₁ hlater.settled (hlater.mem p hp)).mono ?_
    rintro _ h' ⟨hok', hset', hp', hsame⟩
    exact ⟨hok', hset', hp', hsame.trans (hlater.neighMem p hp trivial)⟩

lemma hbtFailed_spec (hok : HostOk h) (hset : AllSettled h) (hp : p ∈ h.neighList) (err : Errno) :
    Runs (hbtFailed p err) h fun _ h' => HostOk h' ∧ AllSettled h' := by
  obtain ⟨n, hn⟩ := hok.neighs.exists_neigh hp
  exact Runs.step (readNeigh_run hn) (Runs.step writeNeigh_run (Runs.pure
    (hok.setHbt hset hp hn false n.hbtTime n.hbtDelay)))

/-- An outbound heartbeat returns: it is made only with a neighbour that has a host id. -/
lemma neighDoHeartbeat_spec (hok : HostOk h) (hset : AllSettled h) (hp : p ∈ h.neighList)
    (start now : UInt64) (io : HbtIo) :
    Runs (neighDoHeartbeat rb start now io p) h fun _ h' => HostOk h' ∧ AllSettled h' := by
  obtain ⟨n, hn⟩ := hok.neighs.exists_neigh hp
  refine Runs.step (readNeigh_run hn) ?_
  split_ifs with hstate
  · exact Runs.pure ⟨hok, hset⟩
  refine Runs.step writeNeigh_run ?_
  have hsome : n.hid.isSome := by
    rw [← (hset p n hp hn).2]
    simpa using (not_or.mp hstate).2
  obtain ⟨hok₁, hset₁⟩ := hok.setHbt hset hp hn n.state.hbtOk start n.hbtDelay
  cases io with
  | connect err => exact hbtFailed_spec hok₁ hset₁ hp err
  | nomem => exact Runs.pure ⟨hok₁, hset₁⟩
  | talk reply =>
    refine Runs.step (readHostId_run (hok.hids.attached p n hn) hsome) ?_
    cases reply with
    | error err => exact hbtFailed_spec hok₁ hset₁ hp err
    | ok peers =>
      refine (addPeers_spec hok₁ hset₁ hp peers).bind fun _ h₂ ⟨hok₂, hset₂, hp₂, hsame⟩ => ?_
      rw [Host.setNeigh_self] at hsame
      exact Runs.step (readNeigh_run hsame) (Runs.step writeNeigh_run (Runs.pure
        (hok₂.setHbt hset₂ hp₂ hsame true _ _)))

/-! ### Histories keep the invariant -/

/-- A step of a history that returns. -/
lemma HbtOp.run_keeps (op : HbtOp) (hok : HostOk h) (hset : AllSettled h) (hrun : op.run rb h = .ok ((), h')) :
    HostOk h' ∧ AllSettled h' := by
  cases op with
  | life op => exact (op.run_spec hok hset).result hrun
  | inbound req max =>
    obtain ⟨r, h₁, hrun₁, hrun₂⟩ := run_bind_inv hrun
    by_cases hans : h.Answerable req max
    · obtain ⟨rfl, -⟩ := (hok.neighHeartbeat_ok hans).result hrun₁
      obtain ⟨-, rfl⟩ := Prod.mk.inj (Except.ok.inj hrun₂)
      exact ⟨hok, hset⟩
    · obtain ⟨e, h₂, hstop, -⟩ : Stops (neighHeartbeat rb req max) h _ := hok.neighHeartbeat_stops hans
      rw [hstop] at hrun₁
      cases hrun₁
  | outbound i start now io =>
    have hspec : Runs (HbtOp.run rb (.outbound i start now io)) h fun _ h' => HostOk h' ∧ AllSettled h' := by
      refine Runs.get ?_
      cases hp : h.neighList[i]? with
      | none => exact Runs.pure ⟨hok, hset⟩
      | some p =>
        refine (neighDoHeartbeat_spec hok hset (mem_of_getElem? hp) start now io).bind fun _ h' hok' => ?_
        exact Runs.pure hok'
    exact hspec.result hrun

lemma HbtOp.runAll_keeps (ops : List HbtOp) (hok : HostOk h) (hset : AllSettled h)
    (hrun : HbtOp.runAll rb ops h = .ok ((), h')) : HostOk h' ∧ AllSettled h' := by
  induction ops generalizing h with
  | nil =>
    obtain ⟨-, rfl⟩ := Prod.mk.inj (Except.ok.inj hrun)
    exact ⟨hok, hset⟩
  | cons op ops ih =>
    obtain ⟨⟨⟩, h₁, hrun₁, hrun₂⟩ := run_bind_inv hrun
    obtain ⟨hok₁, hset₁⟩ := op.run_keeps hok hset hrun₁
    exact ih hok₁ hset₁ hrun₂

/-! ### Tables -/

/-- Between requests a neighbour has a host id exactly if it is shaken. -/
lemma HostOk.attached_iff_shaked (hok : HostOk h) (hset : AllSettled h) (hp : p ∈ h.neighList) :
    h.Attached p ↔ (h.info p).state.shaked = true := by
  obtain ⟨n, hn⟩ := hok.neighs.exists_neigh hp
  rw [Host.attached_iff hn, Host.info_eq hn, ← (hset p n hp hn).2]

/-- A host that an entry is attached to is known. -/
lemma HostOk.not_refuses (hok : HostOk h) (hnet : req.srcNetId = h.netId) (hdst : req.dstHostId = h.hostId)
    (hp : p ∈ h.neighList) (hatt : h.Attached p) (hid : (h.info p).hostId = req.srcHostId) : ¬ h.Refuses req := by
  rintro (hne | hne | hnone)
  · exact hne hnet
  · exact hne hdst
  · obtain ⟨n, hn, hids⟩ := hok.live p hp
    obtain ⟨q, hq⟩ := Option.isSome_iff_exists.mp ((Host.attached_iff hn).mp hatt)
    obtain ⟨d, hd⟩ := Option.isSome_iff_exists.mp (hids q hq)
    refine hnone q d hd ?_
    rw [← hid, Host.info_eq hn, hq]
    show d.hostId = ((h.hidMem q).map HostId.hostId).getD .zero
    rw [hd]
    rfl

/-- **Heartbeat answers.** In every state that a history reaches, a request is answered safely if and
only if it is refused before the walk or every neighbour the walk comes to has a host id. -/
theorem heartbeat_safe_iff (rb : Balancer ℕ) (netId hostId : ObjId) (fails : ℕ → Bool) (ops : List HbtOp)
    (hrun : HbtOp.runAll rb ops (Host.create netId hostId fails) = .ok ((), h)) (req : HbtReq) (max : ℕ) :
    HbtSafe rb h req max ↔ h.Answerable req max := by
  obtain ⟨hok, -⟩ := HbtOp.runAll_keeps ops (hostOk_create netId hostId fails) (fun _ _ hp => nomatch hp) hrun
  exact hok.hbtSafe_iff

end

/-- A new host after a handshake with the host `⟨1, 1⟩`. -/
lemma exists_shaken : ∃ h, HbtOp.runAll .plain [.life (.inbound .zero ⟨1, 1⟩ 1 1)]
    (Host.create .zero .zero fun _ => false) = .ok ((), h) ∧ HostOk h ∧ AllSettled h ∧
    h.netId = .zero ∧ h.hostId = .zero ∧ h.fails = (fun _ => false) ∧
    h.table = [⟨1, 1, ⟨true, true, false⟩, ⟨1, 1⟩, 0, 0⟩] := by
  obtain ⟨r, h, hrun, hok, hgrew, hspec, -⟩ :
      Runs (neighHandshake Balancer.plain .zero ⟨1, 1⟩ 1 1) (Host.create .zero .zero fun _ => false) _ :=
    neighHandshake_spec (hostOk_create ..)
  have hlater : Later (fun _ => True) _ h := hgrew.later fun _ _ hp => nomatch hp
  refine ⟨h, ?_, hok, hlater.settled, hgrew.netId, hgrew.hostId, hgrew.fails, ?_⟩
  · exact (run_bind_ok (run_bind_ok hrun)).trans rfl
  · exact (congrArg Prod.snd hspec).trans (by decide)

/-- After its handshake the host is answered safely. -/
theorem heartbeat_safe_shaken : ∃ h, HbtOp.runAll .plain [.life (.inbound .zero ⟨1, 1⟩ 1 1)]
    (Host.create .zero .zero fun _ => false) = .ok ((), h) ∧ ¬ h.Refuses ⟨.zero, ⟨1, 1⟩, .zero⟩ ∧
    HbtSafe .plain h ⟨.zero, ⟨1, 1⟩, .zero⟩ 16 := by
  obtain ⟨h, hrun, hok, hset, hnet, hhost, -, htable⟩ := exists_shaken
  obtain ⟨p, ps, hlist, hinfo, hps⟩ := List.map_eq_cons_iff.mp htable
  obtain rfl := List.map_eq_nil_iff.mp hps
  have hp : p ∈ h.neighList := by
    rw [hlist]
    exact List.mem_singleton_self p
  have hatt : h.Attached p := by
    rw [hok.attached_iff_shaked hset hp, hinfo]
  refine ⟨h, hrun, hok.not_refuses hnet.symm hhost.symm hp hatt (by rw [hinfo]), ?_⟩
  refine (heartbeat_safe_iff _ _ _ _ _ hrun _ _).mpr (Or.inr fun l₁ p' l₂ heq _ => ?_)
  have hp' : p' ∈ h.neighList := by
    rw [heq]
    exact List.mem_append_right _ (List.mem_cons_self ..)
  rw [hlist, List.mem_singleton] at hp'
  exact hp' ▸ hatt

/-- One more neighbour, added by address, is enough: the walk comes to it and follows its null
pointer. -/
theorem not_heartbeat_safe : ¬ ∀ (rb : Balancer ℕ) (netId hostId : ObjId) (fails : ℕ → Bool) (ops : List HbtOp)
    (h : Host) (req : HbtReq) (max : ℕ), HbtOp.runAll rb ops (Host.create netId hostId fails) = .ok ((), h) →
    HbtSafe rb h req max := by
  intro hall
  obtain ⟨h₁, hrun₁, hok₁, hset₁, hnet₁, hhost₁, hfails₁, htable₁⟩ := exists_shaken
  obtain ⟨r, h, hrun, hok, hgrew, hspec⟩ : Runs (neighAdd Balancer.plain 2 1) h₁ _ := neighAdd_spec hok₁
  have hlater : Later (fun _ => True) h₁ h := hgrew.later hset₁
  have htable : h.table = [⟨1, 1, ⟨true, true, false⟩, ⟨1, 1⟩, 0, 0⟩, ⟨2, 1, ⟨true, false, false⟩, .zero, 0, 0⟩] := by
    refine (congrArg Prod.snd hspec).trans ?_
    rw [RouteOp.onTable, hfails₁, htable₁, if_neg (by decide), if_neg Bool.false_ne_true]
    decide
  obtain ⟨p₁, ps, hlist, hinfo₁, hps⟩ := List.map_eq_cons_iff.mp htable
  obtain ⟨p₂, ps, rfl, hinfo₂, hps⟩ := List.map_eq_cons_iff.mp hps
  have hp₁ : p₁ ∈ h.neighList := by
    rw [hlist]
    exact List.mem_cons_self ..
  have hp₂ : p₂ ∈ h.neighList := by
    rw [hlist]
    exact List.mem_cons_of_mem _ (List.mem_cons_self ..)
  have hatt : h.Attached p₁ := by
    rw [hok.attached_iff_shaked hlater.settled hp₁, hinfo₁]
  have hruns : HbtOp.runAll Balancer.plain [.life (.inbound .zero ⟨1, 1⟩ 1 1), .life (.add 2 1)]
      (Host.create .zero .zero fun _ => false) = .ok ((), h) := by
    obtain ⟨⟨⟩, h₂, hfirst, hnil⟩ := run_bind_inv hrun₁
    obtain ⟨-, rfl⟩ := Prod.mk.inj (Except.ok.inj hnil)
    exact (run_bind_ok hfirst).trans ((run_bind_ok (run_bind_ok hrun)).trans rfl)
  rcases hok.hbtSafe_iff.mp (hall _ _ _ _ _ h ⟨.zero, ⟨1, 1⟩, .zero⟩ 16 hruns) with href | hwalk
  · exact hok.not_refuses (hgrew.netId.trans hnet₁).symm (hgrew.hostId.trans hhost₁).symm hp₁ hatt
      (by rw [hinfo₁]) href
  · -- the first entry is the sender's and not reported
    have hno : ¬ h.Reports ⟨1, 1⟩ p₁ := fun hrep => hrep.2.1 (by rw [hinfo₁])
    have hatt₂ := hwalk [p₁] p₂ ps hlist (by simp [hno])
    rw [hok.attached_iff_shaked hlater.settled hp₂, hinfo₂] at hatt₂
    cases hatt₂

end Nkfs
