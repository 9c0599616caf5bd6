import Nkfs.Route.Table

/-!
# Handshakes between two hosts

Two hosts on one net id add each other's server addresses and send handshake requests for the
neighbours that are not shaken yet. A request in flight, or its reply, may be lost at any time. Each
host keeps its table as one map by address, whoever made the entry.

`nkfs_neigh_handshake` answers a request with 0 exactly if the table has room and no entry for the
address the request comes from (`Admits`): an entry that the host made itself, or one left by an
earlier request whose reply was lost, is answered with `-EEXIST`. In runs in which every request
meets that condition, a request and its reply leave both hosts shaken (`handshake_tolerates`).
-/

namespace Nkfs

open Lib.Program Lib.SearchTree List

/-! ### The initiator -/

/-- Source: `include/nkfs_net.h` `u.neigh_handshake` of a request -/
structure ShakeReq where
  netId : ObjId
  hostId : ObjId
  ip : UInt32
  port : ℤ

/-- `nkfs_neigh_do_handshake` up to the request; no request if the neighbour is shaken. `src` is what
`nkfs_server_select_one` gives. -/
def shakeRequest (src : Except Errno (UInt32 × ℤ)) (p : ℕ) : R (Except Errno (Option ShakeReq)) := do
  let n ← readNeigh p
  let h ← get
  if n.state.inited = false then return .error .einval
  else if n.state.shaked then return .ok none
  else
    match src with
    | .error err => return .error err
    | .ok (ip, port) =>
      if ip = 0 ∨ port = 0 then return .error .einval
      else return .ok (some ⟨h.netId, h.hostId, ip, port⟩)

/-- `nkfs_neigh_do_handshake` from the reply on. -/
def shakeReply (rb : Balancer ℕ) (p : ℕ) : Except Errno ObjId → R (Except Errno Unit)
  | .error err => return .error err
  | .ok id => do
    match ← hostIdLookupOrCreate rb id with
    | none => return .error .enomem
    | some q =>
      neighAttachHostId p q
      let n ← readNeigh p
      writeNeigh p { n with state := { n.state with shaked := true } }
      return .ok ()

/-- The responder. Source: `core/route.c` `nkfs_route_neigh_handshake` -/
def shakeAnswer (rb : Balancer ℕ) (req : ShakeReq) : R (Except Errno ObjId) :=
  neighHandshake rb req.netId req.hostId req.ip req.port

/-! ### Two hosts -/

/-- The net id, and the id and the server addresses of each of the two hosts. -/
structure Cluster where
  netId : ObjId
  hostId : Bool → ObjId
  addrs : Bool → List (UInt32 × ℤ)
  nonzero : ∀ x, ∀ a ∈ addrs x, a.1 ≠ 0 ∧ a.2 ≠ 0

/-- A call of `nkfs_neigh_do_handshake` that waits, for its request or its reply to arrive. It holds
the semaphore of its neighbour. -/
structure Call where
  src : Bool
  neigh : ℕ
  req : ShakeReq
  reply : Option (Except Errno ObjId)

/-- The two hosts and the calls under way. -/
structure Pair where
  host : Bool → Host
  calls : List Call

/-- The pair with another state of host `x`. -/
def Pair.set (σ : Pair) (x : Bool) (h : Host) (calls : List Call) : Pair :=
  ⟨Function.update σ.host x h, calls⟩

/-- Two new hosts. -/
def Pair.init (c : Cluster) : Pair := ⟨fun x => Host.create c.netId (c.hostId x) fun _ => false, []⟩

/-- One step. A request is answered only if the responder meets `G`. -/
inductive Step (rb : Balancer ℕ) (c : Cluster) (G : Host → ShakeReq → Prop) : Pair → Pair → Prop
  /-- `nkfs_route_neigh_add` of an address of the other host -/
  | add {σ : Pair} {x : Bool} {a : UInt32 × ℤ} {r : Except Errno Unit} {h : Host} (ha : a ∈ c.addrs (!x))
      (hrun : neighAdd rb a.1 a.2 (σ.host x) = .ok (r, h)) : Step rb c G σ (σ.set x h σ.calls)
  /-- the timer's work for a neighbour whose semaphore is free, connecting to the other host -/
  | send {σ : Pair} {x : Bool} {p : ℕ} {n : Neigh} {src : UInt32 × ℤ} {req : ShakeReq} {h : Host}
      (hp : p ∈ (σ.host x).neighList) (hn : (σ.host x).neighMem p = some n)
      (hdst : (n.ip, n.port) ∈ c.addrs (!x)) (hfree : ∀ k ∈ σ.calls, k.src = x → k.neigh ≠ p)
      (hsrc : src ∈ c.addrs x) (hrun : shakeRequest (.ok src) p (σ.host x) = .ok (.ok (some req), h)) :
      Step rb c G σ (σ.set x h (σ.calls ++ [⟨x, p, req, none⟩]))
  /-- a request arrives and is answered -/
  | answer {σ : Pair} {l₁ l₂ : List Call} {k : Call} {r : Except Errno ObjId} {h : Host}
      (hcalls : σ.calls = l₁ ++ k :: l₂) (hreply : k.reply = none) (hG : G (σ.host (!k.src)) k.req)
      (hrun : shakeAnswer rb k.req (σ.host (!k.src)) = .ok (r, h)) :
      Step rb c G σ (σ.set (!k.src) h (l₁ ++ { k with reply := some r } :: l₂))
  /-- the request or the reply is lost -/
  | lose {σ : Pair} {l₁ l₂ : List Call} {k : Call} (hcalls : σ.calls = l₁ ++ k :: l₂) :
      Step rb c G σ ⟨σ.host, l₁ ++ l₂⟩
  /-- a reply arrives -/
  | finish {σ : Pair} {l₁ l₂ : List Call} {k : Call} {reply : Except Errno ObjId} {r : Except Errno Unit}
      {h : Host} (hcalls : σ.calls = l₁ ++ k :: l₂) (hreply : k.reply = some reply)
      (hrun : shakeReply rb k.neigh reply (σ.host k.src) = .ok (r, h)) :
      Step rb c G σ (σ.set k.src h (l₁ ++ l₂))

/-- The states that runs from two new hosts reach. -/
def Reach (rb : Balancer ℕ) (c : Cluster) (G : Host → ShakeReq → Prop) : Pair → Prop :=
  Relation.ReflTransGen (Step rb c G) (Pair.init c)

/-- The table has room and no entry for the address that the request comes from. -/
def Admits (h : Host) (req : ShakeReq) : Prop :=
  hasAddr h.table req.ip req.port = false ∧ h.table.length < routeMaxNeighs

/-- The table has room, or an entry for the address that is not shaken or shaken with the same host. -/
def Entitled (h : Host) (req : ShakeReq) : Prop :=
  h.table.length < routeMaxNeighs ∨
    ∃ i ∈ h.table, i.ip = req.ip ∧ i.port = req.port ∧ (i.state.shaked = false ∨ i.hostId = req.hostId)

/-- The request was answered with 0 and the responder's id, and there is one entry for its address,
initialised, shaken and attached to the sender. -/
def Answered (h : Host) (req : ShakeReq) (r : Except Errno ObjId) (h' : Host) : Prop :=
  r = .ok h.hostId ∧ ∃ i, (h'.table.filter fun i => i.ip = req.ip ∧ i.port = req.port) = [i] ∧
    i.state.inited = true ∧ i.state.shaked = true ∧ i.hostId = req.hostId

/-- The table has a shaken entry for one of the addresses, attached to the id. -/
def ShakenWith (h : Host) (addrs : List (UInt32 × ℤ)) (id : ObjId) : Prop :=
  ∃ i ∈ h.table, (i.ip, i.port) ∈ addrs ∧ i.state.shaked = true ∧ i.hostId = id

section

variable {rb : Balancer ℕ} {c : Cluster} {h h' : Host} {p : ℕ} {n : Neigh} {id : ObjId} {req : ShakeReq}

/-! ### The two halves of a handshake -/

lemma hasAddr_eq_false {T : List NeighInfo} {ip : UInt32} {port : ℤ} :
    hasAddr T ip port = false ↔ T.filter (fun i => i.ip = ip ∧ i.port = port) = [] := by
  rw [hasAddr, any_eq_false, filter_eq_nil_iff]

/-- **A request is answered as it should be exactly if the responder admits it.** -/
theorem shakeAnswer_spec (hok : HostOk h) (hfails : h.fails = fun _ => false) (hnet : req.netId = h.netId)
    (hip : req.ip ≠ 0) (hport : req.port ≠ 0) : Runs (shakeAnswer rb req) h fun r h' =>
      HostOk h' ∧ Grew h h' ∧ (Answered h req r h' ↔ Admits h req) ∧ ((∃ id, r = .ok id) → Admits h req) := by
  refine (neighHandshake_spec hok).mono fun r h' ⟨hok', hgrew, hspec, hreply⟩ => ⟨hok', hgrew, ?_⟩
  rw [RouteOp.onTable, if_neg (not_not.mpr hnet), if_neg (not_or.mpr ⟨hip, hport⟩), hfails,
    if_neg (by simp), addTo] at hspec
  dsimp only at hspec
  have hadmits : (∃ id, r = .ok id) → Admits h req := by
    rintro ⟨id, rfl⟩
    split_ifs at hspec with hhas hroom
    · cases congrArg Prod.fst hspec
    · exact ⟨Bool.eq_false_iff.mpr hhas, hroom⟩
    · cases congrArg Prod.fst hspec
  refine ⟨⟨fun hans => hadmits ⟨_, hans.1⟩, ?_⟩, hadmits⟩
  · rintro ⟨hhas, hroom⟩
    rw [if_neg (by rw [hhas]; exact Bool.false_ne_true), if_pos hroom, Prod.mk.injEq] at hspec
    obtain ⟨hr, htable⟩ := hspec
    cases r with
    | error e => cases hr
    | ok reply =>
      refine ⟨by rw [hreply reply rfl], ⟨req.ip, req.port, ⟨true, true, false⟩, req.hostId, 0, 0⟩, ?_, rfl, rfl, rfl⟩
      rw [htable, List.filter_append, hasAddr_eq_false.mp hhas, List.nil_append]
      exact List.filter_cons_of_pos (decide_eq_true ⟨rfl, rfl⟩)

/-- **A reply with 0** leaves the neighbour shaken and attached to the responder. -/
theorem shakeReply_spec (hok : HostOk h) (hf : h.fails h.next = false) (hp : p ∈ h.neighList)
    (hn : h.neighMem p = some n) (hhid : n.hid = none) : Runs (shakeReply rb p (.ok id)) h fun r h' =>
      r = .ok () ∧ HostOk h' ∧ TableStep h h' p ∧
        h'.info p = { h.info p with state := { n.state with shaked := true }, hostId := id } ∧
        ∃ q, h'.neighMem p =
          some { n with hid := some q, linked := true, state := { n.state with shaked := true } } := by
  refine (hostIdLookupOrCreate_spec hok.hids hf).bind fun _ h₁ ⟨q, d, hr, hd, hid, hhok₁, hs₁, _⟩ => ?_
  subst hr
  have hn₁ : h₁.neighMem p = some n := by rw [hs₁.neighMem, hn]
  refine (neighAttachHostId_spec hhok₁ hn₁ hhid hd).bind fun _ h₂ ⟨hhok₂, hs₂, hn₂, hid₂, _⟩ => ?_
  refine Runs.step (readNeigh_run hn₂) (Runs.step writeNeigh_run (Runs.pure ?_))
  have hstep : TableStep h (h₂.setNeigh p (some { n with
      hid := some q, linked := true, state := { n.state with shaked := true } })) p :=
    (hs₁.tableStep.trans hs₂).trans tableStep_setNeigh
  have hself : (h₂.setNeigh p (some { n with
      hid := some q, linked := true, state := { n.state with shaked := true } })).neighMem p = _ := Host.setNeigh_self
  refine ⟨rfl, ⟨?_, hhok₂.setNeigh hn₂ rfl rfl⟩, hstep, ?_, q, hself⟩
  · exact hok.neighs.setListed hstep hp hn hself (hok.neighs.ref p n hn) ((hok.neighs.host p n hn).mpr hp) rfl rfl
  · rw [Host.info_eq hself, Host.info_eq hn, NeighInfo.mk.injEq]
    refine ⟨rfl, rfl, rfl, ?_, rfl, rfl⟩
    show ((h₂.hidMem q).map HostId.hostId).getD .zero = id
    rw [hid₂, hid]
    rfl

/-! ### Runs -/

/-- A call under way: its neighbour is listed and not attached, its request is the sender's, and a
reply with 0 has left a shaken entry at the responder. -/
structure CallOk (c : Cluster) (σ : Pair) (k : Call) : Prop where
  listed : k.neigh ∈ (σ.host k.src).neighList
  free : ∀ n, (σ.host k.src).neighMem k.neigh = some n → n.hid = none
  dst : (((σ.host k.src).info k.neigh).ip, ((σ.host k.src).info k.neigh).port) ∈ c.addrs (!k.src)
  netId : k.req.netId = c.netId
  hostId : k.req.hostId = c.hostId k.src
  addr : (k.req.ip, k.req.port) ∈ c.addrs k.src
  reply : ∀ id, k.reply = some (.ok id) →
    id = c.hostId (!k.src) ∧ ShakenWith (σ.host (!k.src)) (c.addrs k.src) (c.hostId k.src)

/-- The invariant of every run. -/
structure PairOk (c : Cluster) (σ : Pair) : Prop where
  host : ∀ x, HostOk (σ.host x)
  netId : ∀ x, (σ.host x).netId = c.netId
  hostId : ∀ x, (σ.host x).hostId = c.hostId x
  fails : ∀ x, (σ.host x).fails = fun _ => false
  settled : ∀ x p n, p ∈ (σ.host x).neighList → (σ.host x).neighMem p = some n → n.Settled
  calls : ∀ k ∈ σ.calls, CallOk c σ k
  apart : (σ.calls.map fun k => (k.src, k.neigh)).Nodup

/-- Every neighbour of the table is settled. -/
def AllSettled (h : Host) : Prop := ∀ p n, p ∈ h.neighList → h.neighMem p = some n → n.Settled

/-- A later state of a host: entries stay and shaken ones stay shaken; those in `F` are unchanged. -/
structure Later (F : ℕ → Prop) (h h' : Host) : Prop where
  netId : h'.netId = h.netId
  hostId : h'.hostId = h.hostId
  fails : h'.fails = h.fails
  mem : ∀ p ∈ h.neighList, p ∈ h'.neighList
  neighMem : ∀ p ∈ h.neighList, F p → h'.neighMem p = h.neighMem p
  info : ∀ p ∈ h.neighList, F p → h'.info p = h.info p
  shaken : ∀ addrs id, ShakenWith h addrs id → ShakenWith h' addrs id
  settled : AllSettled h'

lemma Later.refl {F : ℕ → Prop} (hset : AllSettled h) : Later F h h :=
  ⟨rfl, rfl, rfl, fun _ hp => hp, fun _ _ _ => rfl, fun _ _ _ => rfl, fun _ _ hs => hs, hset⟩

lemma Grew.later {F : ℕ → Prop} (hg : Grew h h') (hset : AllSettled h) : Later F h h' := by
  have hmem : ∀ p ∈ h.neighList, p ∈ h'.neighList := fun p hp => by
    obtain ⟨ps, hps⟩ := hg.neighList
    rw [hps]
    exact mem_append_left _ hp
  refine ⟨hg.netId, hg.hostId, hg.fails, hmem, fun p hp _ => hg.neighMem p hp, fun p hp _ => hg.info p hp, ?_, ?_⟩
  · rintro addrs id ⟨i, hi, hrest⟩
    obtain ⟨p, hp, rfl⟩ := mem_map.mp hi
    refine ⟨h'.info p, mem_map_of_mem (hmem p hp), ?_⟩
    rw [hg.info p hp]
    exact hrest
  · intro p n hp hn
    by_cases hold : p ∈ h.neighList
    · rw [hg.neighMem p hold] at hn
      exact hset p n hold hn
    · obtain ⟨m, hm, hm'⟩ := hg.fresh p hp hold
      rw [Option.some.inj (hn.symm.trans hm)]
      exact hm'

/-- One neighbour is shaken. -/
lemma TableStep.later (hs : TableStep h h' p) (hset : AllSettled h) (hn : h.neighMem p = some n)
    (hhid : n.hid = none) (hset' : ∀ m, h'.neighMem p = some m → m.Settled) : Later (· ≠ p) h h' := by
  refine ⟨hs.netId, hs.hostId, hs.fails, fun p' hp' => hs.neighList ▸ hp', fun p' _ => hs.neighMem p',
    fun p' _ => hs.info p', ?_, fun p' m hp' hm => ?_⟩
  · rintro addrs id ⟨i, hi, haddr, hshaked, hid⟩
    obtain ⟨p', hp', rfl⟩ := mem_map.mp hi
    -- a shaken entry is not the one that was not attached
    have hne : p' ≠ p := by
      rintro rfl
      have hsettled := (hset p' n hp' hn).2
      rw [Host.info_eq hn] at hshaked
      rw [hhid, hshaked] at hsettled
      cases hsettled
    refine ⟨h'.info p', mem_map_of_mem (hs.neighList ▸ hp'), ?_⟩
    rw [hs.info p' hne]
    exact ⟨haddr, hshaked, hid⟩
  · rcases eq_or_ne p' p with rfl | hne
    · exact hset' m hm
    · rw [hs.neighMem p' hne] at hm
      exact hset p' m (hs.neighList ▸ hp') hm

variable {σ σ' : Pair} {x : Bool} {k : Call} {calls : List Call}

lemma Pair.set_host : (σ.set x h calls).host x = h := Function.update_self ..

lemma Pair.set_other {y : Bool} (hy : y ≠ x) : (σ.set x h calls).host y = σ.host y :=
  Function.update_of_ne hy ..

/-- One host moves on. -/
lemma PairOk.set {F : ℕ → Prop} (hσ : PairOk c σ) (hok : HostOk h) (hl : Later F (σ.host x) h)
    (hcalls : ∀ k ∈ calls, CallOk c (σ.set x h calls) k)
    (hapart : (calls.map fun k => (k.src, k.neigh)).Nodup) : PairOk c (σ.set x h calls) := by
  have hall : ∀ {P : Bool → Host → Prop}, P x h → (∀ y, P y (σ.host y)) →
      ∀ y, P y ((σ.set x h calls).host y) := by
    intro P hx hP y
    rcases eq_or_ne y x with rfl | hy
    · rw [Pair.set_host]
      exact hx
    · rw [Pair.set_other hy]
      exact hP y
  exact {
    host := hall (P := fun _ h => HostOk h) hok hσ.host
    netId := hall (P := fun _ h => h.netId = c.netId) (hl.netId.trans (hσ.netId x)) hσ.netId
    hostId := hall (P := fun y h => h.hostId = c.hostId y) (hl.hostId.trans (hσ.hostId x)) hσ.hostId
    fails := hall (P := fun _ h => h.fails = fun _ => false) (hl.fails.trans (hσ.fails x)) hσ.fails
    settled := hall (P := fun _ h => AllSettled h) hl.settled hσ.settled
    calls := hcalls
    apart := hapart }

/-- A call whose neighbour did not change. -/
lemma CallOk.set {F : ℕ → Prop} (hk : CallOk c σ k) (hl : Later F (σ.host x) h)
    (hF : k.src = x → F k.neigh) : CallOk c (σ.set x h calls) k := by
  have hreply : ∀ {addrs id}, ShakenWith (σ.host (!k.src)) addrs id →
      ShakenWith ((σ.set x h calls).host (!k.src)) addrs id := by
    intro addrs id hs
    rcases eq_or_ne (!k.src) x with hx | hx
    · rw [hx, Pair.set_host]
      exact hl.shaken addrs id (hx ▸ hs)
    · rw [Pair.set_other hx]
      exact hs
  rcases eq_or_ne k.src x with hx | hx
  · have hlisted := hk.listed
    rw [hx] at hlisted
    exact {
      listed := by rw [hx, Pair.set_host]; exact hl.mem _ hlisted
      free := fun n hn => by
        rw [hx, Pair.set_host, hl.neighMem _ hlisted (hF hx), ← hx] at hn
        exact hk.free n hn
      dst := by
        rw [hx, Pair.set_host, hl.info _ hlisted (hF hx), ← hx]
        exact hk.dst
      netId := hk.netId
      hostId := hk.hostId
      addr := hk.addr
      reply := fun id hid => ⟨(hk.reply id hid).1, hreply (hk.reply id hid).2⟩ }
  · exact {
      listed := by rw [Pair.set_other hx]; exact hk.listed
      free := by rw [Pair.set_other hx]; exact hk.free
      dst := by rw [Pair.set_other hx]; exact hk.dst
      netId := hk.netId
      hostId := hk.hostId
      addr := hk.addr
      reply := fun id hid => ⟨(hk.reply id hid).1, hreply (hk.reply id hid).2⟩ }

/-- The sender's part of a request. -/
lemma shakeRequest_inv {src : UInt32 × ℤ} (hn : h.neighMem p = some n)
    (hrun : shakeRequest (.ok src) p h = .ok (.ok (some req), h')) :
    h' = h ∧ n.state.shaked = false ∧ req = ⟨h.netId, h.hostId, src.1, src.2⟩ := by
  rw [shakeRequest, run_bind_ok (readNeigh_run hn), run_get] at hrun
  split_ifs at hrun with hinited hshaked
  · cases hrun
  · cases hrun
  · dsimp only at hrun
    split_ifs at hrun with hzero
    · cases hrun
    · have hrun : Except.ok (Except.ok (some (⟨h.netId, h.hostId, src.1, src.2⟩ : ShakeReq)), h) =
          (Except.ok (Except.ok (some req), h') : Except (RefFault × Host) (Except Errno (Option ShakeReq) × Host)) := hrun
      rw [Except.ok.injEq, Prod.mk.injEq, Except.ok.injEq, Option.some.injEq] at hrun
      exact ⟨hrun.2.symm, Bool.eq_false_iff.mpr hshaked, hrun.1.symm⟩

lemma pairOk_init : PairOk c (Pair.init c) where
  host x := hostOk_create c.netId (c.hostId x) _
  netId _ := rfl
  hostId _ := rfl
  fails _ := rfl
  settled _ _ _ hp := nomatch hp
  calls _ hk := nomatch hk
  apart := nodup_nil

lemma PairOk.answer_spec (hσ : PairOk c σ) (hk : CallOk c σ k) :
    Runs (shakeAnswer rb k.req) (σ.host (!k.src)) fun r h' => HostOk h' ∧ Grew (σ.host (!k.src)) h' ∧
      (Answered (σ.host (!k.src)) k.req r h' ↔ Admits (σ.host (!k.src)) k.req) ∧
      ((∃ id, r = .ok id) → Admits (σ.host (!k.src)) k.req) := by
  obtain ⟨hip, hport⟩ := c.nonzero k.src _ hk.addr
  exact shakeAnswer_spec (hσ.host _) (hσ.fails _) (hk.netId.trans (hσ.netId _).symm) hip hport

variable {l₁ l₂ : List Call} {G : Host → ShakeReq → Prop}

lemma mem_of_calls (hcalls : σ.calls = l₁ ++ k :: l₂) : k ∈ σ.calls := by
  rw [hcalls]
  exact mem_append_right _ (mem_cons_self ..)

/-- The calls without one of them. -/
lemma PairOk.rest (hσ : PairOk c σ) (hcalls : σ.calls = l₁ ++ k :: l₂) :
    ((l₁ ++ l₂).map fun k => (k.src, k.neigh)).Nodup ∧
      ∀ k' ∈ l₁ ++ l₂, k' ∈ σ.calls ∧ (k'.src = k.src → k'.neigh ≠ k.neigh) := by
  have hapart := hσ.apart
  rw [hcalls, map_append, map_cons, nodup_middle, nodup_cons, ← map_append] at hapart
  refine ⟨hapart.2, fun k' hk' => ⟨?_, fun hsrc hneigh => hapart.1 ?_⟩⟩
  · rw [hcalls]
    exact ((List.Sublist.refl l₁).append (sublist_cons_self k l₂)).subset hk'
  · exact mem_map.mpr ⟨k', hk', by rw [hsrc, hneigh]⟩

/-- **One step keeps the invariant.** -/
theorem PairOk.step (hσ : PairOk c σ) (hstep : Step rb c G σ σ') : PairOk c σ' := by
  cases hstep with
  | @add x a r h ha hrun =>
    obtain ⟨hok, hgrew, -⟩ := (neighAdd_spec (hσ.host x)).result hrun
    have hl : Later (fun _ => True) (σ.host x) h := hgrew.later (hσ.settled x)
    exact hσ.set hok hl (fun k hk => (hσ.calls k hk).set hl fun _ => trivial) hσ.apart
  | @send x p n src req h hp hn hdst hfree hsrc hrun =>
    obtain ⟨rfl, hshaked, rfl⟩ := shakeRequest_inv hn hrun
    have hl : Later (fun _ => True) (σ.host x) (σ.host x) := Later.refl (hσ.settled x)
    refine hσ.set (hσ.host x) hl (fun k hk => ?_) ?_
    · rcases List.mem_append.mp hk with hk | hk
      · exact (hσ.calls k hk).set hl fun _ => trivial
      · rw [List.mem_singleton.mp hk]
        refine CallOk.set (F := fun _ => True) ?_ hl fun _ => trivial
        refine ⟨hp, fun m hm => ?_, ?_, hσ.netId x, hσ.hostId x, hsrc, fun id h => (nomatch h)⟩
        · rw [← Option.some.inj (hn.symm.trans hm), ← Option.not_isSome_iff_eq_none,
            ← (hσ.settled x p n hp hn).2, hshaked]
          exact Bool.false_ne_true
        · rw [Host.info_eq hn]
          exact hdst
    · rw [List.map_append, List.map_singleton, List.nodup_append]
      refine ⟨hσ.apart, List.nodup_singleton _, fun a ha b hb hab => ?_⟩
      obtain ⟨k, hk, rfl⟩ := List.mem_map.mp ha
      rw [List.mem_singleton.mp hb, Prod.mk.injEq] at hab
      exact hfree k hk hab.1 hab.2
  | @answer l₁ l₂ k r h hcalls hreply hG hrun =>
    have hk := hσ.calls k (mem_of_calls hcalls)
    obtain ⟨hok, hgrew, hans, hadmits⟩ := (hσ.answer_spec hk).result hrun
    have hl : Later (fun _ => True) (σ.host (!k.src)) h := hgrew.later (hσ.settled _)
    obtain ⟨-, hrest⟩ := hσ.rest hcalls
    refine hσ.set hok hl (fun k' hk' => ?_) ?_
    · rw [List.mem_append, List.mem_cons] at hk'
      have hother : k' ∈ l₁ ++ l₂ → CallOk c (σ.set (!k.src) h (l₁ ++ { k with reply := some r } :: l₂)) k' :=
        fun hk' => (hσ.calls k' (hrest k' hk').1).set hl fun _ => trivial
      rcases hk' with hk' | rfl | hk'
      · exact hother (List.mem_append_left _ hk')
      · have hself : CallOk c (σ.set (!k.src) h (l₁ ++ { k with reply := some r } :: l₂)) k :=
          hk.set hl fun _ => trivial
        refine { hself with reply := fun id hid => ?_ }
        have hr : r = .ok id := Option.some.inj hid
        obtain ⟨hid, i, hfilter, -, hshaked, hhost⟩ := hans.mpr (hadmits ⟨id, hr⟩)
        rw [hr, Except.ok.injEq, hσ.hostId] at hid
        refine ⟨hid, ?_⟩
        rw [Pair.set_host]
        have hi : i ∈ h.table.filter fun i => i.ip = k.req.ip ∧ i.port = k.req.port := by
          rw [hfilter]
          exact List.mem_singleton_self i
        obtain ⟨hi, haddr⟩ := List.mem_filter.mp hi
        obtain ⟨hip, hport⟩ := of_decide_eq_true haddr
        exact ⟨i, hi, by rw [hip, hport]; exact hk.addr, hshaked, hhost.trans hk.hostId⟩
      · exact hother (List.mem_append_right _ hk')
    · have hapart := hσ.apart
      rw [hcalls] at hapart
      simpa only [List.map_append, List.map_cons] using hapart
  | @lose l₁ l₂ k hcalls =>
    obtain ⟨hapart, hrest⟩ := hσ.rest hcalls
    exact { hσ with
      calls := fun k' hk' => { hσ.calls k' (hrest k' hk').1 with }
      apart := hapart }
  | @finish l₁ l₂ k reply r h hcalls hreply hrun =>
    have hk := hσ.calls k (mem_of_calls hcalls)
    obtain ⟨hapart, hrest⟩ := hσ.rest hcalls
    cases reply with
    | error e =>
      have hl : Later (fun _ => True) (σ.host k.src) (σ.host k.src) := Later.refl (hσ.settled _)
      have hrun : Except.ok (Except.error e, σ.host k.src) =
        (Except.ok (r, h) : Except (RefFault × Host) (Except Errno Unit × Host)) := hrun
      rw [Except.ok.injEq, Prod.mk.injEq] at hrun
      rw [← hrun.2]
      exact hσ.set (hσ.host _) hl (fun k' hk' => (hσ.calls k' (hrest k' hk').1).set hl fun _ => trivial) hapart
    | ok id =>
      obtain ⟨n, hn⟩ := (hσ.host k.src).neighs.exists_neigh hk.listed
      obtain ⟨-, hok, hs, -, q, hq⟩ :=
        (shakeReply_spec (hσ.host _) (congrFun (hσ.fails _) _) hk.listed hn (hk.free n hn)).result hrun
      have hl := hs.later (hσ.settled _) hn (hk.free n hn) fun m hm => by
        rw [← Option.some.inj (hq.symm.trans hm)]
        exact ⟨(hσ.settled _ _ n hk.listed hn).1, rfl⟩
      exact hσ.set hok hl (fun k' hk' => (hσ.calls k' (hrest k' hk').1).set hl (hrest k' hk').2) hapart

lemma Reach.pairOk (hreach : Reach rb c G σ) : PairOk c σ := by
  induction hreach with
  | refl => exact pairOk_init
  | tail _ hstep ih => exact ih.step hstep

/-- No request was answered with an error. -/
def NoError (σ : Pair) : Prop := ∀ k ∈ σ.calls, ∀ e, k.reply ≠ some (.error e)

lemma NoError.step (hno : NoError σ) (hσ : PairOk c σ) (hstep : Step rb c Admits σ σ') : NoError σ' := by
  cases hstep with
  | add ha hrun => exact hno
  | send hp hn hdst hfree hsrc hrun =>
    intro k hk e he
    rcases mem_append.mp hk with hk | hk
    · exact hno k hk e he
    · rw [mem_singleton.mp hk] at he
      cases he
  | @answer l₁ l₂ k r h hcalls hreply hG hrun =>
    obtain ⟨-, -, hans, -⟩ := (hσ.answer_spec (hσ.calls k (mem_of_calls hcalls))).result hrun
    intro k' hk' e he
    have hk' : k' ∈ l₁ ++ { k with reply := some r } :: l₂ := hk'
    rw [mem_append, mem_cons] at hk'
    rcases hk' with hk' | rfl | hk'
    · exact hno k' ((hσ.rest hcalls).2 k' (mem_append_left _ hk')).1 e he
    · have he : some r = some (.error e) := he
      rw [(hans.mpr hG).1] at he
      cases he
    · exact hno k' ((hσ.rest hcalls).2 k' (mem_append_right _ hk')).1 e he
  | lose hcalls => exact fun k' hk' => hno k' ((hσ.rest hcalls).2 k' hk').1
  | finish hcalls hreply hrun => exact fun k' hk' => hno k' ((hσ.rest hcalls).2 k' hk').1

lemma Reach.noError (hreach : Reach rb c Admits σ) : NoError σ := by
  induction hreach with
  | refl => exact fun _ hk => nomatch hk
  | tail hreach hstep ih => exact ih.step (Reach.pairOk hreach) hstep

/-- **Handshakes.** In every run a request is answered as it should be exactly if the responder's table
has room and no entry for its address. If all requests of a run meet that, a reply that arrives
leaves both hosts shaken with each other. -/
theorem handshake_tolerates (rb : Balancer ℕ) (c : Cluster) :
    (∀ σ, Reach rb c (fun _ _ => True) σ → ∀ k ∈ σ.calls, k.reply = none →
      Runs (shakeAnswer rb k.req) (σ.host (!k.src)) fun r h' =>
        (Answered (σ.host (!k.src)) k.req r h' ↔ Admits (σ.host (!k.src)) k.req)) ∧
    ∀ σ, Reach rb c Admits σ → ∀ k ∈ σ.calls, ∀ reply, k.reply = some reply →
      Runs (shakeReply rb k.neigh reply) (σ.host k.src) fun r h' => r = .ok () ∧
        ShakenWith h' (c.addrs (!k.src)) (c.hostId (!k.src)) ∧
        ShakenWith (σ.host (!k.src)) (c.addrs k.src) (c.hostId k.src) := by
  refine ⟨fun σ hreach k hk _ => ?_, fun σ hreach k hk reply hreply => ?_⟩
  · have hσ := hreach.pairOk
    exact (hσ.answer_spec (hσ.calls k hk)).mono fun _ _ hr => hr.2.2.1
  · have hσ := hreach.pairOk
    have hcall := hσ.calls k hk
    cases reply with
    | error e => exact absurd hreply (hreach.noError k hk e)
    | ok id =>
      obtain ⟨rfl, hshaken⟩ := hcall.reply id hreply
      obtain ⟨n, hn⟩ := (hσ.host k.src).neighs.exists_neigh hcall.listed
      refine (shakeReply_spec (hσ.host _) (congrFun (hσ.fails _) _) hcall.listed hn (hcall.free n hn)).mono
        fun r h' ⟨hr, hok, hs, hinfo, _⟩ => ⟨hr, ⟨h'.info k.neigh, ?_, ?_, ?_, ?_⟩, hshaken⟩
      · exact List.mem_map_of_mem (hs.neighList ▸ hcall.listed)
      · rw [hinfo]
        exact hcall.dst
      · rw [hinfo]
      · rw [hinfo]

/-! ### Two runs -/

/-- A host with an empty table adds an address. -/
lemma PairOk.exists_add {a : UInt32 × ℤ} (hσ : PairOk c σ) (rb : Balancer ℕ)
    (G : Host → ShakeReq → Prop) (hempty : (σ.host x).table = [])
    (ha : a ∈ c.addrs (!x)) : ∃ h p n, Step rb c G σ (σ.set x h σ.calls) ∧ p ∈ h.neighList ∧
      h.neighMem p = some n ∧ n.ip = a.1 ∧ n.port = a.2 ∧ n.state = ⟨true, false, false⟩ ∧
      hasAddr h.table a.1 a.2 = true ∧ h.table.length = 1 := by
  obtain ⟨hip, hport⟩ := c.nonzero _ a ha
  obtain ⟨r, h, hrun, hok, -, hspec⟩ : Runs (neighAdd rb a.1 a.2) (σ.host x) _ := neighAdd_spec (hσ.host x)
  rw [RouteOp.onTable, if_neg (not_or.mpr ⟨hip, hport⟩), hσ.fails, if_neg Bool.false_ne_true, hempty] at hspec
  have htable : h.table = [⟨a.1, a.2, ⟨true, false, false⟩, .zero, 0, 0⟩] := congrArg Prod.snd hspec
  have hinfo : ∃ p ∈ h.neighList, h.info p = ⟨a.1, a.2, ⟨true, false, false⟩, .zero, 0, 0⟩ := by
    have hmem : (⟨a.1, a.2, ⟨true, false, false⟩, .zero, 0, 0⟩ : NeighInfo) ∈ h.table := by
      rw [htable]
      exact mem_singleton_self _
    obtain ⟨p, hp, heq⟩ := mem_map.mp hmem
    exact ⟨p, hp, heq⟩
  obtain ⟨p, hp, hinfo⟩ := hinfo
  obtain ⟨n, hn⟩ := hok.neighs.exists_neigh hp
  rw [Host.info_eq hn, NeighInfo.mk.injEq] at hinfo
  refine ⟨h, p, n, .add ha hrun, hp, hn, hinfo.1, hinfo.2.1, hinfo.2.2.1, ?_, by rw [htable]; rfl⟩
  rw [htable, hasAddr, any_cons]
  simp

/-- A host sends a request for a neighbour that is not shaken. -/
lemma step_send {src : UInt32 × ℤ} (hp : p ∈ (σ.host x).neighList)
    (hn : (σ.host x).neighMem p = some n) (hstate : n.state = ⟨true, false, false⟩)
    (hdst : (n.ip, n.port) ∈ c.addrs (!x)) (hcalls : σ.calls = []) (hsrc : src ∈ c.addrs x) :
    Step rb c G σ (σ.set x (σ.host x)
      [⟨x, p, ⟨(σ.host x).netId, (σ.host x).hostId, src.1, src.2⟩, none⟩]) := by
  obtain ⟨hip, hport⟩ := c.nonzero _ src hsrc
  have hrun : shakeRequest (.ok src) p (σ.host x) =
      .ok (.ok (some ⟨(σ.host x).netId, (σ.host x).hostId, src.1, src.2⟩), σ.host x) := by
    rw [shakeRequest, run_bind_ok (readNeigh_run hn), run_get, hstate]
    show (if src.1 = 0 ∨ src.2 = 0 then _ else _ : R _) _ = _
    rw [if_neg (not_or.mpr ⟨hip, hport⟩)]
    rfl
  have hstep : Step rb c G σ _ := Step.send hp hn hdst (fun k hk => by rw [hcalls] at hk; cases hk) hsrc hrun
  rwa [hcalls, nil_append] at hstep

end

/-- Two hosts with one address each. -/
def Cluster.two : Cluster where
  netId := .zero
  hostId x := if x then ⟨0, 2⟩ else ⟨0, 1⟩
  addrs x := if x then [(2, 9111)] else [(1, 9111)]
  nonzero x a ha := by
    cases x with
    | false =>
      rw [List.mem_singleton.mp ha]
      exact ⟨by decide, by decide⟩
    | true =>
      rw [List.mem_singleton.mp ha]
      exact ⟨by decide, by decide⟩

/-- The first host adds the second one and sends its request. -/
lemma exists_sent (G : Host → ShakeReq → Prop) (σ : Pair) (hreach : Reach .plain .two G σ)
    (hcalls : σ.calls = []) (hempty : (σ.host false).table = []) :
    ∃ σ' k, Reach .plain .two G σ' ∧ σ'.calls = [k] ∧ k.reply = none ∧ k.src = false ∧
      σ'.host true = σ.host true ∧ k.req.ip = 1 ∧ k.req.port = 9111 := by
  obtain ⟨h, p, n, hadd, hp, hn, hip, hport, hstate, -⟩ :=
    hreach.pairOk.exists_add .plain G hempty (mem_singleton_self ((2 : UInt32), (9111 : ℤ)))
  have hself : (σ.set false h σ.calls).host false = h := Pair.set_host
  have hsend : Step .plain .two G (σ.set false h σ.calls) _ := step_send (x := false) (p := p) (n := n)
    (by rw [hself]; exact hp) (by rw [hself]; exact hn) hstate
    (by rw [hip, hport]; exact mem_singleton_self _) hcalls
    (mem_singleton_self ((1 : UInt32), (9111 : ℤ)))
  exact ⟨_, _, (hreach.tail hadd).tail hsend, rfl, rfl, rfl, rfl, rfl, rfl⟩

/-- A request, its answer and the reply. -/
theorem handshake_tolerates_two :
    (∃ σ k, Reach .plain .two (fun _ _ => True) σ ∧ k ∈ σ.calls ∧
      Runs (shakeAnswer .plain k.req) (σ.host (!k.src)) fun r h' =>
        (Answered (σ.host (!k.src)) k.req r h' ↔ Admits (σ.host (!k.src)) k.req)) ∧
    ∃ σ k reply, Reach .plain .two Admits σ ∧ k ∈ σ.calls ∧
      Runs (shakeReply .plain k.neigh reply) (σ.host k.src) fun r h' => r = .ok () ∧
        ShakenWith h' (Cluster.two.addrs (!k.src)) (Cluster.two.hostId (!k.src)) ∧
        ShakenWith (σ.host (!k.src)) (Cluster.two.addrs k.src) (Cluster.two.hostId k.src) := by
  constructor
  · obtain ⟨σ, k, hreach, hcalls, hreply, -⟩ := exists_sent (fun _ _ => True) _ .refl rfl rfl
    have hk : k ∈ σ.calls := by rw [hcalls]; exact List.mem_singleton_self k
    exact ⟨σ, k, hreach, hk, (handshake_tolerates .plain .two).1 σ hreach k hk hreply⟩
  · obtain ⟨σ, k, hreach, hcalls, hreply, hsrc, hhost, -⟩ := exists_sent Admits _ .refl rfl rfl
    have hk : k ∈ σ.calls := by rw [hcalls]; exact List.mem_singleton_self k
    have hσ := hreach.pairOk
    have htable : (σ.host (!k.src)).table = [] := by
      rw [hsrc, Bool.not_false, hhost]
      rfl
    have hadmits : Admits (σ.host (!k.src)) k.req := by
      rw [Admits, htable]
      exact ⟨rfl, by decide⟩
    obtain ⟨r, h, hrun, -⟩ : Runs (shakeAnswer .plain k.req) (σ.host (!k.src)) _ := hσ.answer_spec (hσ.calls k hk)
    have hcalls : σ.calls = [] ++ k :: [] := hcalls
    have hstep : Step .plain .two Admits σ _ := Step.answer hcalls hreply hadmits hrun
    have hk' := List.mem_singleton_self { k with reply := some r }
    exact ⟨_, _, r, hreach.tail hstep, hk',
      (handshake_tolerates .plain .two).2 _ (hreach.tail hstep) { k with reply := some r } hk' r rfl⟩

/-- Mutual adds are not tolerated: the table has room, and the request is refused. -/
theorem not_handshake_tolerates : ¬ ∀ (rb : Balancer ℕ) (c : Cluster) (σ : Pair),
    Reach rb c (fun _ _ => True) σ → ∀ k ∈ σ.calls, k.reply = none →
      Entitled (σ.host (!k.src)) k.req → Runs (shakeAnswer rb k.req) (σ.host (!k.src)) fun r h' =>
        Answered (σ.host (!k.src)) k.req r h' := by
  intro hall
  -- the second host adds the first one, then the first host adds the second one and sends its request
  obtain ⟨h, p, n, hadd, -, -, -, -, -, hhas, hlen⟩ := (pairOk_init (c := .two)).exists_add
    (x := true) .plain (fun _ _ => True) rfl (List.mem_singleton_self ((1 : UInt32), (9111 : ℤ)))
  obtain ⟨σ, k, hreach, hcalls, hreply, hsrc, hhost, hip, hport⟩ := exists_sent (fun _ _ => True) _
    (Relation.ReflTransGen.refl.tail hadd) rfl rfl
  have hk : k ∈ σ.calls := by rw [hcalls]; exact List.mem_singleton_self k
  have hhost : σ.host (!k.src) = h := by
    rw [hsrc, Bool.not_false, hhost]
    exact Pair.set_host
  have hσ := hreach.pairOk
  obtain ⟨r, h', hrun, -, -, hiff, -⟩ : Runs (shakeAnswer .plain k.req) (σ.host (!k.src)) _ :=
    hσ.answer_spec (hσ.calls k hk)
  have hans := (hall .plain .two σ hreach k hk hreply (.inl (by rw [hhost, hlen]; decide))).result hrun
  have hno := (hiff.mp hans).1
  rw [hhost, hip, hport, hhas] at hno
  cases hno

end Nkfs
