import Nkfs.Route.Neighs

/-!
# The neighbour table as a bounded map

The table of a host is what its list holds. `RouteOp.onTable` says what each request should do with
the table as a map from addresses to entries with at most `routeMaxNeighs` entries. Adding and the
handshake do that, and keep tree, list, counter and memory together. `nkfs_host_remove_neigh` does
it only on an empty table: its second loop runs over the host's list, so it drops the entries that
were to be kept (`neighTable_refines_iff`).
-/

namespace Nkfs

open Lib.Program Lib.SearchTree List

/-! ### The map -/

/-- Whether the table has the address. -/
def hasAddr (T : List NeighInfo) (ip : UInt32) (port : ℤ) : Bool :=
  T.any fun i => i.ip = ip ∧ i.port = port

/-- Adding an entry. -/
def addTo (T : List NeighInfo) (i : NeighInfo) : Except Errno Unit × List NeighInfo :=
  if hasAddr T i.ip i.port then (.error .eexist, T)
  else if T.length < routeMaxNeighs then (.ok (), T ++ [i])
  else (.error .elimit, T)

/-- Removing an address. -/
def removeFrom (T : List NeighInfo) (ip : UInt32) (port : ℤ) : Except Errno Unit × List NeighInfo :=
  if hasAddr T ip port then (.ok (), T.filter fun i => ¬ (i.ip = ip ∧ i.port = port))
  else (.error .enoent, T)

/-- The requests that change the table. -/
inductive RouteOp where
  | add (ip : UInt32) (port : ℤ)
  | handshake (netId hostId : ObjId) (ip : UInt32) (port : ℤ)
  | remove (ip : UInt32) (port : ℤ)

/-- What a request does. -/
def RouteOp.run (rb : Balancer ℕ) : RouteOp → R (Except Errno Unit)
  | .add ip port => neighAdd rb ip port
  | .handshake netId hostId ip port => do
    let r ← neighHandshake rb netId hostId ip port
    return r.map fun _ => ()
  | .remove ip port => neighRemove rb ip port

/-- The table, entry by entry. -/
def Host.table (h : Host) : List NeighInfo := h.neighList.map h.info

/-- What a request should return and leave as table. -/
def RouteOp.onTable (h : Host) : RouteOp → Except Errno Unit × List NeighInfo
  | .add ip port =>
    if ip = 0 ∨ port = 0 then (.error .einval, h.table)
    else if h.fails h.next then (.error .enomem, h.table)
    else addTo h.table ⟨ip, port, ⟨true, false, false⟩, .zero, 0, 0⟩
  | .handshake netId hostId ip port =>
    if netId ≠ h.netId then (.error .einval, h.table)
    else if ip = 0 ∨ port = 0 then (.error .einval, h.table)
    else if h.fails h.next ∨ h.fails (h.next + 1) then (.error .enomem, h.table)
    else addTo h.table ⟨ip, port, ⟨true, true, false⟩, hostId, 0, 0⟩
  | .remove ip port =>
    if ip = 0 ∨ port = 0 then (.error .einval, h.table)
    else removeFrom h.table ip port

/-- Tree, list, counter and memory agree, and the report is the table. -/
structure TableOk (h : Host) : Prop where
  same : ∀ p, p ∈ h.neighs.toList ↔ p ∈ h.neighList
  tree_nodup : h.neighs.toList.Nodup
  list_nodup : h.neighList.Nodup
  distinct : (h.table.map fun i => (i.ip, i.port)).Nodup
  active : h.neighsActive = h.table.length
  le_max : h.table.length ≤ routeMaxNeighs
  live : ∀ p, (h.neighMem p).isSome ↔ p ∈ h.neighList
  info : neighInfo routeMaxNeighs h = .ok (.ok h.table, h)

/-- Every request of the run does to the table what it should, and the table stays in order. -/
def RunOk (rb : Balancer ℕ) : List RouteOp → Host → Prop
  | [], h => TableOk h
  | op :: ops, h => TableOk h ∧
      ∃ r h', op.run rb h = .ok (r, h') ∧ (r, h'.table) = op.onTable h ∧ RunOk rb ops h'

/-- Every removal of the run starts with an empty table. -/
def RemovesOnEmpty (rb : Balancer ℕ) : List RouteOp → Host → Prop
  | [], _ => True
  | op :: ops, h =>
    (∀ ip port, op = .remove ip port → ip ≠ 0 → port ≠ 0 → h.table = []) ∧
      ∀ r h', op.run rb h = .ok (r, h') → RemovesOnEmpty rb ops h'

/-! ### Between requests -/

/-- The state of a host between two requests. -/
structure HostOk (h : Host) : Prop where
  neighs : NeighsOk h none
  hids : HidsOk h none

section

variable {h h' : Host} {p q : ℕ} {n : Neigh} {d : HostId} {ip : UInt32} {port : ℤ} {rb : Balancer ℕ}
  {i : NeighInfo}

lemma hostOk_create (netId hostId : ObjId) (fails : ℕ → Bool) : HostOk (Host.create netId hostId fails) where
  neighs := {
    perm := List.Perm.refl _
    sorted := List.Pairwise.nil
    active := rfl
    le_max := Nat.zero_le _
    live := fun _ => ⟨fun h => (nomatch h), fun h => h.elim (fun h => (nomatch h)) fun h => (nomatch h)⟩
    away := fun _ h => (nomatch h)
    fresh := fun _ h => (nomatch h)
    ref := fun _ _ h => (nomatch h)
    host := fun _ _ h => (nomatch h) }
  hids := {
    sorted := List.Pairwise.nil
    active := rfl
    live := fun _ => ⟨fun h => (nomatch h), fun h => (nomatch h)⟩
    fresh := fun _ h => (nomatch h)
    host := fun _ _ h => (nomatch h)
    ref := fun _ _ h => (nomatch h)
    pos := fun _ _ h => (nomatch h)
    nodup := fun _ _ h => (nomatch h)
    mem := fun _ _ h => (nomatch h)
    linked := fun _ _ h => (nomatch h)
    attached := fun _ _ h => (nomatch h) }

lemma NeighsOk.exists_neigh {held : Option ℕ} (hok : NeighsOk h held) (hp : p ∈ h.neighList) :
    ∃ n, h.neighMem p = some n := Option.isSome_iff_exists.mp ((hok.live p).mpr (.inl hp))

/-- Key and info of a listed neighbour. -/
lemma NeighsOk.key_info {held : Option ℕ} (hok : NeighsOk h held) (hp : p ∈ h.neighList) :
    h.key p = addrKey (h.info p).ip (h.info p).port := by
  obtain ⟨n, hn⟩ := hok.exists_neigh hp
  rw [Host.key_eq hn, Host.info_eq hn]

lemma NeighsOk.known_iff {held : Option ℕ} (hok : NeighsOk h held) :
    h.Known ip port ↔ hasAddr h.table ip port = true := by
  rw [hasAddr, any_eq_true, Host.table]
  constructor
  · rintro ⟨p, hp, hkey⟩
    rw [hok.key_info hp, addrKey_inj] at hkey
    exact ⟨h.info p, mem_map_of_mem hp, decide_eq_true hkey⟩
  · rintro ⟨i, hi, haddr⟩
    obtain ⟨p, hp, rfl⟩ := mem_map.mp hi
    exact ⟨p, hp, by rw [hok.key_info hp, addrKey_inj]; exact of_decide_eq_true haddr⟩

/-- The loop of the report. -/
lemma fillInfo_run (hok : HostOk h) {room : ℕ} {ps : List ℕ} (hps : ∀ p ∈ ps, p ∈ h.neighList)
    (hroom : ps.length ≤ room) : fillInfo room ps h = .ok (.ok (ps.map h.info), h) := by
  induction ps generalizing room with
  | nil => cases room <;> rfl
  | cons p ps ih =>
    obtain ⟨room, rfl⟩ : ∃ r, room = r + 1 := ⟨room - 1, by rw [length_cons] at hroom; omega⟩
    obtain ⟨n, hn⟩ := hok.neighs.exists_neigh (hps p (mem_cons_self ..))
    have hrest := ih (fun p' hp' => hps p' (mem_cons_of_mem _ hp')) (Nat.le_of_succ_le_succ hroom)
    have hid : infoHostId n.hid h = .ok (h.idOf n.hid, h) := by
      cases hq : n.hid with
      | none => rfl
      | some q =>
        obtain ⟨d, hd⟩ := Option.isSome_iff_exists.mp (hok.hids.attached p n hn q hq)
        rw [infoHostId, run_bind_ok (readHid_run hd), Host.idOf, Option.bind_some, hd]
        rfl
    rw [fillInfo, run_bind_ok (readNeigh_run hn), run_bind_ok hid, run_bind_ok hrest, map_cons,
      Host.info_eq hn]
    rfl

lemma HostOk.tableOk (hok : HostOk h) : TableOk h where
  same _ := hok.neighs.perm.mem_iff
  tree_nodup := hok.neighs.sorted.nodup
  list_nodup := hok.neighs.perm.nodup_iff.mp hok.neighs.sorted.nodup
  distinct := by
    rw [Host.table, map_map]
    refine (hok.neighs.perm.map _).nodup_iff.mp (pairwise_map.mpr (hok.neighs.sorted.imp_of_mem ?_))
    intro p p' hp hp' hlt heq
    rw [Function.comp_apply, Function.comp_apply, Prod.mk.injEq] at heq
    rw [hok.neighs.key_info (hok.neighs.perm.mem_iff.mp hp), hok.neighs.key_info (hok.neighs.perm.mem_iff.mp hp'),
      heq.1, heq.2] at hlt
    exact lt_irrefl _ hlt
  active := by rw [Host.table, length_map]; exact hok.neighs.active
  le_max := by rw [Host.table, length_map]; exact hok.neighs.le_max
  live p := by rw [hok.neighs.live p, or_iff_left (Option.some_ne_none p).symm]
  info := fillInfo_run hok (fun _ h => h) hok.neighs.le_max

/-! ### Adding -/

/-- Shaken exactly if attached to a host id. -/
def Neigh.Settled (n : Neigh) : Prop := n.state.inited = true ∧ n.state.shaked = n.hid.isSome

/-- Entries may come, none changes. -/
structure Grew (h h' : Host) : Prop where
  netId : h'.netId = h.netId
  hostId : h'.hostId = h.hostId
  fails : h'.fails = h.fails
  next : h.next ≤ h'.next
  neighList : ∃ ps, h'.neighList = h.neighList ++ ps
  neighMem : ∀ p ∈ h.neighList, h'.neighMem p = h.neighMem p
  info : ∀ p ∈ h.neighList, h'.info p = h.info p
  fresh : ∀ p ∈ h'.neighList, p ∉ h.neighList → ∃ n, h'.neighMem p = some n ∧ n.Settled

lemma TableStep.grew (hs : TableStep h h' p) (hp : p ∉ h.neighList) : Grew h h' where
  netId := hs.netId
  hostId := hs.hostId
  fails := hs.fails
  next := hs.next
  neighList := ⟨[], by rw [hs.neighList, append_nil]⟩
  neighMem p' hp' := hs.neighMem p' fun he => hp (he ▸ hp')
  info p' hp' := hs.info p' fun he => hp (he ▸ hp')
  fresh p' hp' hnew := absurd (hs.neighList ▸ hp') hnew

lemma TableStep.table (hs : TableStep h h' p) (hp : p ∉ h.neighList) : h'.table = h.table := by
  rw [Host.table, Host.table, hs.neighList]
  exact map_congr_left fun p' hp' => hs.info p' fun he => hp (he ▸ hp')

lemma HostOk.next_notMem (hok : HostOk h) : h.next ∉ h.neighList := fun hp =>
  (hok.neighs.fresh h.next ((hok.neighs.live h.next).mpr (.inl hp))).false

/-- A neighbour is allocated. -/
lemma HostOk.alloc (hok : HostOk h) (href : n.ref = 1) (hhost : n.host = false) (hhid : n.hid = none)
    (hlinked : n.linked = false) : NeighsOk (h.tick.setNeigh h.next (some n)) (some h.next) ∧
      HidsOk (h.tick.setNeigh h.next (some n)) none ∧
      TableStep h (h.tick.setNeigh h.next (some n)) h.next := by
  have hstep : TableStep h (h.tick.setNeigh h.next (some n)) h.next :=
    hidStep_tick.tableStep.trans tableStep_setNeigh
  have hself : (h.tick.setNeigh h.next (some n)).neighMem h.next = some n := Host.setNeigh_self
  refine ⟨hok.neighs.tableStep hstep hok.next_notMem (fun p' => ?_) (fun _ _ h => (nomatch h)) ?_ ?_, ?_, hstep⟩
  · rw [hself, Option.some.injEq]
    exact ⟨fun h => ⟨h.symm, rfl⟩, fun h => h.1.symm⟩
  · exact fun _ => Nat.lt_succ_self _
  · intro m hm
    rw [← Option.some.inj (hself.symm.trans hm)]
    exact ⟨href, hhost⟩
  · refine hok.hids.tick.setFree (fun m hm => ?_) fun m hm => ?_
    · exact absurd (hok.neighs.fresh h.next (by rw [show h.neighMem h.next = some m from hm]; rfl))
        (lt_irrefl _)
    · rw [← Option.some.inj hm]
      exact ⟨hhid, hlinked⟩

lemma grew_withNeigh {h₁ : Host} {t : RbTree ℕ} (hs : TableStep h h₁ p) (hp : p ∉ h.neighList)
    (hset : n.Settled) : Grew h (h₁.withNeigh t p n) := by
  have hne : ∀ p' ∈ h.neighList, p' ≠ p := fun p' hp' he => hp (he ▸ hp')
  have hsame : ∀ p' ∈ h.neighList, (h₁.withNeigh t p n).neighMem p' = h₁.neighMem p' :=
    fun p' hp' => Host.setNeigh_other (hne p' hp')
  have hlist : (h₁.withNeigh t p n).neighList = h.neighList ++ [p] := by
    rw [← hs.neighList]
    rfl
  refine ⟨hs.netId, hs.hostId, hs.fails, hs.next, ⟨[p], hlist⟩, fun p' hp' => ?_, fun p' hp' => ?_,
    fun p' hp' hnew => ?_⟩
  · rw [hsame p' hp']
    exact hs.neighMem p' (hne p' hp')
  · rw [← hs.info p' (hne p' hp'), Host.info, Host.info, hsame p' hp']
    rfl
  · rw [hlist, mem_append, mem_singleton, or_iff_right hnew] at hp'
    rw [hp']
    exact ⟨_, Host.setNeigh_self, hset⟩

/-- **Inserting the neighbour in hand**: what `addTo` says, or the state is as before. -/
theorem hostAddNeigh_spec {h₁ : Host} (hs : TableStep h h₁ p) (hp : p ∉ h.neighList)
    (hnok : NeighsOk h₁ (some p)) (hhok : HidsOk h₁ none) (hn : h₁.neighMem p = some n) (hset : n.Settled) :
    Runs (hostAddNeigh rb p) h₁ fun r h₂ =>
      (r = .ok () ∧ HostOk h₂ ∧ Grew h h₂ ∧ addTo h.table (h₁.info p) = (.ok (), h₂.table)) ∨
      ∃ e, r = .error e ∧ h₂ = h₁ ∧ addTo h.table (h₁.info p) = (.error e, h.table) := by
  have htable := hs.table hp
  have hknown : h₁.Known n.ip n.port ↔ hasAddr h.table (h₁.info p).ip (h₁.info p).port = true := by
    rw [hnok.known_iff, htable, Host.info_eq hn]
  have hlen : h.table.length = h₁.neighList.length := by
    rw [← htable, Host.table, List.length_map]
  by_cases hk : h₁.Known n.ip n.port
  · refine Runs.intro (hostAddNeigh_known hnok hn hk) (.inr ⟨_, rfl, rfl, ?_⟩)
    rw [addTo, if_pos (hknown.mp hk)]
  · by_cases hroom : h₁.neighList.length < routeMaxNeighs
    · obtain ⟨t, hok, hrun⟩ : ∃ t, NeighsOk (h₁.withNeigh t p n) none ∧ hostAddNeigh rb p h₁ = _ :=
        hostAddNeigh_new hnok hn hk hroom
      have hgrew : Grew h (h₁.withNeigh t p n) := grew_withNeigh hs hp hset
      refine Runs.intro hrun (.inl ⟨rfl, ⟨hok, hhok.withNeigh hn⟩, hgrew, ?_⟩)
      rw [addTo, if_neg (mt hknown.mpr hk), hlen, if_pos hroom, Prod.mk.injEq]
      refine ⟨rfl, ?_⟩
      have hlist : (h₁.withNeigh t p n).neighList = h.neighList ++ [p] := by
        rw [← hs.neighList]
        rfl
      have hinfo : (h₁.withNeigh t p n).info p = h₁.info p := by
        rw [Host.info_eq hn, Host.info_eq (show (h₁.withNeigh t p n).neighMem p = _ from Host.setNeigh_self)]
        rfl
      rw [Host.table, Host.table, hlist, List.map_append, List.map_singleton, hinfo]
      rw [List.map_congr_left hgrew.info]
    · refine Runs.intro (hostAddNeigh_full hnok hn hk (by have := hnok.le_max; omega)) (.inr ⟨_, rfl, rfl, ?_⟩)
      rw [addTo, if_neg (mt hknown.mpr hk), hlen, if_neg hroom]

lemma neighAlloc_ok (hf : h.fails h.next = false) :
    neighAlloc h = .ok (some h.next, h.tick.setNeigh h.next (some .blank)) := by
  rw [neighAlloc, run_bind_ok (kmalloc_ok hf)]
  rfl

lemma neighAlloc_fails (hf : h.fails h.next = true) : neighAlloc h = .ok (none, h.tick) := by
  rw [neighAlloc, run_bind_ok (kmalloc_fails hf)]
  rfl

lemma HostOk.tick (hok : HostOk h) : HostOk h.tick := ⟨hok.neighs.hidStep hidStep_tick, hok.hids.tick⟩

lemma grew_tick : Grew h h.tick where
  netId := rfl
  hostId := rfl
  fails := rfl
  next := Nat.le_succ _
  neighList := ⟨[], (append_nil _).symm⟩
  neighMem _ _ := rfl
  info _ _ := rfl
  fresh _ hp hnew := absurd hp hnew

lemma Grew.refl (h : Host) : Grew h h where
  netId := rfl
  hostId := rfl
  fails := rfl
  next := le_refl _
  neighList := ⟨[], (append_nil _).symm⟩
  neighMem _ _ := rfl
  info _ _ := rfl
  fresh _ hp hnew := absurd hp hnew

/-- **`nkfs_route_neigh_add`** -/
theorem neighAdd_spec (hok : HostOk h) : Runs (neighAdd rb ip port) h fun r h' =>
    HostOk h' ∧ Grew h h' ∧ (r, h'.table) = RouteOp.onTable h (.add ip port) := by
  rw [neighAdd, RouteOp.onTable]
  by_cases hzero : ip = 0 ∨ port = 0
  · rw [if_pos hzero, if_pos hzero]
    exact Runs.pure ⟨hok, Grew.refl h, rfl⟩
  rw [if_neg hzero, if_neg hzero]
  cases hf : h.fails h.next with
  | true => exact Runs.step (neighAlloc_fails hf) (Runs.pure ⟨hok.tick, grew_tick, rfl⟩)
  | false =>
    refine Runs.step (neighAlloc_ok hf) (Runs.step writeNeigh_run ?_)
    rw [Host.setNeigh_setNeigh]
    obtain ⟨hnok, hhok, hs⟩ := hok.alloc (n := { Neigh.blank with
      ip := ip, port := port, state := ⟨true, false, false⟩ }) rfl rfl rfl rfl
    refine (hostAddNeigh_spec hs hok.next_notMem hnok hhok Host.setNeigh_self ⟨rfl, rfl⟩).bind fun r h₂ hr => ?_
    rw [Host.info_eq Host.setNeigh_self] at hr
    rcases hr with ⟨rfl, hok₂, hgrew, hadd⟩ | ⟨e, rfl, rfl, hadd⟩
    · exact Runs.pure ⟨hok₂, hgrew, hadd.symm⟩
    · rw [if_pos (by exact fun h => (nomatch h))]
      refine (neighDeref_held hnok hhok).bind fun _ h₃ ⟨hnok₃, hhok₃, hs₃⟩ => Runs.pure ?_
      have hstep := hs.trans hs₃
      exact ⟨⟨hnok₃, hhok₃⟩, hstep.grew hok.next_notMem, by
        rw [hstep.table hok.next_notMem]
        exact hadd.symm⟩

/-- The neighbour that a handshake inserts. -/
def Neigh.shaken (ip : UInt32) (port : ℤ) (q : ℕ) : Neigh :=
  { Neigh.blank with ip := ip, port := port, hid := some q, linked := true, state := ⟨true, true, false⟩ }

/-- **`nkfs_neigh_handshake`** -/
theorem neighHandshake_spec {netId hostId : ObjId} (hok : HostOk h) :
    Runs (neighHandshake rb netId hostId ip port) h fun r h' =>
      HostOk h' ∧ Grew h h' ∧
        (r.map fun _ => (), h'.table) = RouteOp.onTable h (.handshake netId hostId ip port) ∧
        ∀ reply, r = .ok reply → reply = h.hostId := by
  rw [neighHandshake, RouteOp.onTable]
  refine Runs.get ?_
  by_cases hnet : netId = h.netId
  swap
  · rw [if_pos (mt objIdCmp_eq_iff.mp hnet), if_pos hnet]
    exact Runs.pure ⟨hok, Grew.refl h, rfl, fun _ h => (nomatch h)⟩
  rw [if_neg (not_not.mpr (objIdCmp_eq_iff.mpr hnet)), if_neg (not_not.mpr hnet)]
  by_cases hzero : ip = 0 ∨ port = 0
  · rw [if_pos hzero, if_pos hzero]
    exact Runs.pure ⟨hok, Grew.refl h, rfl, fun _ h => (nomatch h)⟩
  rw [if_neg hzero, if_neg hzero]
  cases hf : h.fails h.next with
  | true => exact Runs.step (neighAlloc_fails hf) (Runs.pure ⟨hok.tick, grew_tick, rfl, fun _ h => (nomatch h)⟩)
  | false =>
    refine Runs.step (neighAlloc_ok hf) (Runs.step writeNeigh_run ?_)
    rw [Host.setNeigh_setNeigh]
    obtain ⟨hnok, hhok, hs⟩ := hok.alloc (n := { Neigh.blank with ip := ip, port := port }) rfl rfl rfl rfl
    cases hf' : h.fails (h.next + 1) with
    | true =>
      refine Runs.step (hostIdLookupOrCreate_fails hf') ?_
      refine (neighDeref_held (hnok.hidStep hidStep_tick) hhok.tick).bind fun _ h₃ ⟨hnok₃, hhok₃, hs₃⟩ =>
        Runs.pure ?_
      have hstep := (hs.trans hidStep_tick.tableStep).trans hs₃
      exact ⟨⟨hnok₃, hhok₃⟩, hstep.grew hok.next_notMem, by rw [hstep.table hok.next_notMem]; rfl,
        fun _ h => (nomatch h)⟩
    | false =>
      refine (hostIdLookupOrCreate_spec hhok hf').bind fun _ h₂ ⟨q, d, hr, hd, hid, hhok₂, hs₂, _⟩ => ?_
      subst hr
      have hn₂ : h₂.neighMem h.next = some { Neigh.blank with ip := ip, port := port } := by
        rw [hs₂.neighMem]
        exact Host.setNeigh_self
      refine (neighAttachHostId_spec hhok₂ hn₂ rfl hd).bind fun _ h₃ ⟨hhok₃, hs₃, hn₃, hid₃, _⟩ => ?_
      refine Runs.step (readNeigh_run hn₃) (Runs.step writeNeigh_run ?_)
      have hstep₄ : TableStep h₃ (h₃.setNeigh h.next (some (Neigh.shaken ip port q))) h.next :=
        tableStep_setNeigh
      have hnok₄ := (hnok.hidStep hs₂).setHeld (hs₃.trans hstep₄) Host.setNeigh_self rfl rfl
      have hhok₄ : HidsOk (h₃.setNeigh h.next (some (Neigh.shaken ip port q))) none :=
        hhok₃.setNeigh hn₃ rfl rfl
      have hstep := ((hs.trans hs₂.tableStep).trans hs₃).trans hstep₄
      refine (hostAddNeigh_spec hstep hok.next_notMem hnok₄ hhok₄ Host.setNeigh_self ⟨rfl, rfl⟩).bind fun r h₅ hr => ?_
      have hinfo : (h₃.setNeigh h.next (some (Neigh.shaken ip port q))).info h.next =
          ⟨ip, port, ⟨true, true, false⟩, hostId, 0, 0⟩ := by
        rw [Host.info_eq Host.setNeigh_self, NeighInfo.mk.injEq]
        refine ⟨rfl, rfl, rfl, ?_, rfl, rfl⟩
        show ((h₃.hidMem q).map HostId.hostId).getD .zero = hostId
        rw [hid₃, hid]
        rfl
      rw [hinfo] at hr
      rcases hr with ⟨rfl, hok₅, hgrew, hadd⟩ | ⟨e, rfl, rfl, hadd⟩
      · exact Runs.pure ⟨hok₅, hgrew, hadd.symm, fun _ h => (Except.ok.inj h).symm⟩
      · refine (neighDeref_held hnok₄ hhok₄).bind fun _ h₆ ⟨hnok₆, hhok₆, hs₆⟩ => Runs.pure ?_
        have hstep₆ := hstep.trans hs₆
        exact ⟨⟨hnok₆, hhok₆⟩, hstep₆.grew hok.next_notMem, by
          rw [hstep₆.table hok.next_notMem]
          exact hadd.symm, fun _ h => (nomatch h)⟩

/-! ### Removing -/

lemma fixes_readNeigh : Fixes Host.neighList (readNeigh p) := fun h n h' hn => by
  rw [readNeigh] at hn
  split at hn
  · cases hn
  · rw [Except.ok.injEq, Prod.mk.injEq] at hn
    rw [hn.2]

lemma fixes_readHid : Fixes Host.neighList (readHid q) := fun h n h' hn => by
  rw [readHid] at hn
  split at hn
  · cases hn
  · rw [Except.ok.injEq, Prod.mk.injEq] at hn
    rw [hn.2]

lemma fixes_writeNeigh : Fixes Host.neighList (writeNeigh p n) := Fixes.modify fun _ => rfl

lemma fixes_writeHid : Fixes Host.neighList (writeHid q d) := Fixes.modify fun _ => rfl

lemma fixes_hidDeref : Fixes Host.neighList (hidDeref rb q) := by
  have hlookup : ∀ id, Fixes Host.neighList (hostIdsLookup id) := fun id h r h' hr =>
    (Fixes.lift : Fixes Host.neighList (liftM (h.hostIds.search (h.hidCmp id)) : R _)) h r h' hr
  have hremove : Fixes Host.neighList (hostIdsRemove rb q) := by
    refine fixes_readHid.bind fun d => (hlookup _).bind fun r => ?_
    cases r with
    | none => exact Fixes.pure
    | some found => exact Fixes.ite Fixes.stop (Fixes.modify fun _ => rfl)
  have hrelease : Fixes Host.neighList (hidRelease rb q) :=
    fixes_readHid.bind fun _ => Fixes.ite (hremove.bind fun _ => Fixes.modify fun _ => rfl)
      (Fixes.modify fun _ => rfl)
  exact fixes_readHid.bind fun _ => Fixes.ite Fixes.stop
    (fixes_writeHid.bind fun _ => Fixes.ite hrelease Fixes.pure)

lemma fixes_neighDeref : Fixes Host.neighList (neighDeref rb p) := by
  have hlookup : ∀ ip port, Fixes Host.neighList (neighsLookup ip port) := fun ip port h r h' hr =>
    (Fixes.lift : Fixes Host.neighList (liftM (h.neighs.search (h.neighCmp ip port)) : R _)) h r h' hr
  have hremove : Fixes Host.neighList (neighsRemove rb p) := by
    refine fixes_readNeigh.bind fun n => (hlookup _ _).bind fun r => ?_
    cases r with
    | none => exact Fixes.pure
    | some found => exact Fixes.ite Fixes.stop (Fixes.modify fun _ => rfl)
  have hdetach : Fixes Host.neighList (neighDetachHid rb p) := by
    refine fixes_readNeigh.bind fun n => ?_
    cases n.hid with
    | none => exact Fixes.pure
    | some q =>
      exact fixes_readHid.bind fun _ => fixes_writeNeigh.bind fun _ => fixes_writeHid.bind fun _ => fixes_hidDeref
  have hrelease : Fixes Host.neighList (neighRelease rb p) :=
    hdetach.bind fun _ => fixes_readNeigh.bind fun _ =>
      Fixes.ite (hremove.bind fun _ => Fixes.modify fun _ => rfl) (Fixes.modify fun _ => rfl)
  exact fixes_readNeigh.bind fun _ => Fixes.ite Fixes.stop
    (fixes_writeNeigh.bind fun _ => Fixes.ite hrelease Fixes.pure)

/-- The second loop of `nkfs_host_remove_neigh` empties the list it runs over. -/
lemma dropListed_list {ps : List ℕ} (hlist : h.neighList = ps) (hrun : dropListed rb ps h = .ok ((), h')) :
    h'.neighList = [] := by
  induction ps generalizing h with
  | nil =>
    rw [dropListed] at hrun
    rw [← hlist]
    exact Fixes.pure h () h' hrun
  | cons p ps ih =>
    rw [dropListed] at hrun
    obtain ⟨_, h₁, h₁run, hrun⟩ := run_bind_inv hrun
    obtain ⟨_, h₂, h₂run, hrun⟩ := run_bind_inv hrun
    refine ih ?_ hrun
    rw [fixes_neighDeref h₁ () h₂ h₂run]
    have h₁run : Except.ok ((), { h with neighList := h.neighList.erase p }) = Except.ok ((), h₁) := h₁run
    rw [Except.ok.injEq, Prod.mk.injEq] at h₁run
    rw [← h₁run.2]
    show h.neighList.erase p = ps
    rw [hlist, erase_cons_head]

/-- The first loop of `nkfs_host_remove_neigh`. -/
lemma leaveOthers_run (hok : HostOk h) {ps : List ℕ} (hps : ∀ p ∈ ps, p ∈ h.neighList) :
    leaveOthers ip port ps h =
      .ok (ps.filter fun p => ¬ ((h.info p).ip = ip ∧ (h.info p).port = port), h) := by
  induction ps with
  | nil => rfl
  | cons p ps ih =>
    obtain ⟨n, hn⟩ := hok.neighs.exists_neigh (hps p (mem_cons_self ..))
    rw [leaveOthers, run_bind_ok (readNeigh_run hn),
      run_bind_ok (ih fun p' hp' => hps p' (mem_cons_of_mem _ hp')), filter_cons, Host.info_eq hn]
    by_cases haddr : n.ip = ip ∧ n.port = port
    · rw [if_pos haddr, if_neg (by simpa using haddr)]
      rfl
    · rw [if_neg haddr, if_pos (decide_eq_true haddr)]
      rfl

/-- Removing from an empty table. -/
lemma neighRemove_empty (hempty : h.neighList = []) (hip : ip ≠ 0) (hport : port ≠ 0) :
    neighRemove rb ip port h = .ok (.error .enoent, h) := by
  rw [neighRemove, if_neg (not_or.mpr ⟨hip, hport⟩), hostRemoveNeigh, run_get, hempty]
  have hsame : { h with neighList := [] } = h := by rw [← hempty]
  show Except.ok (_, { h with neighList := [] }) = _
  rw [hsame]
  rfl

/-- **Removing from a table that is not empty** never does what it should. -/
theorem neighRemove_not_onTable {r : Except Errno Unit} (hok : HostOk h) (hne : h.table ≠ []) (hip : ip ≠ 0)
    (hport : port ≠ 0) (hrun : neighRemove rb ip port h = .ok (r, h')) :
    (r, h'.table) ≠ RouteOp.onTable h (.remove ip port) := by
  rw [neighRemove, if_neg (not_or.mpr ⟨hip, hport⟩), hostRemoveNeigh, run_get,
    run_bind_ok (leaveOthers_run hok fun _ h => h)] at hrun
  obtain ⟨_, h₁, hset, hrun⟩ := run_bind_inv hrun
  obtain ⟨_, h₂, hdrop, hret⟩ := run_bind_inv hrun
  have hset : Except.ok ((), { h with
      neighList := h.neighList.filter fun p => ¬ ((h.info p).ip = ip ∧ (h.info p).port = port) }) =
      Except.ok ((), h₁) := hset
  rw [Except.ok.injEq, Prod.mk.injEq] at hset
  have hlist := dropListed_list (by rw [← hset.2]) hdrop
  have hret : Except.ok (_, h₂) = Except.ok (r, h') := hret
  rw [Except.ok.injEq, Prod.mk.injEq] at hret
  have htable : h'.table = [] := by rw [Host.table, ← hret.2, hlist, List.map_nil]
  rw [RouteOp.onTable, if_neg (not_or.mpr ⟨hip, hport⟩), removeFrom, htable, ← hret.1]
  by_cases hhas : hasAddr h.table ip port = true
  · rw [if_pos hhas, Ne, Prod.mk.injEq]
    rintro ⟨hr, hfilter⟩
    -- all entries have the address, so the second loop meets none
    rw [Host.table, List.filter_map, eq_comm, List.map_eq_nil_iff] at hfilter
    have hnone : h.neighList.filter (fun p => ¬ ((h.info p).ip = ip ∧ (h.info p).port = port)) = [] := hfilter
    rw [hnone] at hr
    cases hr
  · rw [if_neg hhas, Ne, Prod.mk.injEq]
    exact fun h => hne h.2.symm

/-! ### Runs -/

/-- A request that does not remove from a table with entries does what it should. -/
lemma RouteOp.run_spec (op : RouteOp) (hok : HostOk h)
    (hempty : ∀ ip port, op = .remove ip port → ip ≠ 0 → port ≠ 0 → h.table = []) :
    Runs (op.run rb) h fun r h' => HostOk h' ∧ (r, h'.table) = op.onTable h := by
  cases op with
  | add ip port => exact (neighAdd_spec hok).mono fun _ _ hr => ⟨hr.1, hr.2.2⟩
  | handshake netId hostId ip port =>
    exact (neighHandshake_spec hok).bind fun _ _ hr => Runs.pure ⟨hr.1, hr.2.2.1⟩
  | remove ip port =>
    by_cases hzero : ip = 0 ∨ port = 0
    · have hrun : neighRemove rb ip port h = .ok (.error .einval, h) := by
        rw [neighRemove, if_pos hzero]
        rfl
      exact Runs.intro hrun ⟨hok, by rw [onTable, if_pos hzero]⟩
    · obtain ⟨hip, hport⟩ := not_or.mp hzero
      have htable := hempty ip port rfl hip hport
      refine Runs.intro (neighRemove_empty (map_eq_nil_iff.mp htable) hip hport) ⟨hok, ?_⟩
      rw [onTable, if_neg hzero, htable]
      rfl

lemma HostOk.runOk_iff_removes (hok : HostOk h) (ops : List RouteOp) : RunOk rb ops h ↔ RemovesOnEmpty rb ops h := by
  induction ops generalizing h with
  | nil => exact ⟨fun _ => trivial, fun _ => hok.tableOk⟩
  | cons op ops ih =>
    constructor
    · rintro ⟨-, r, h', hrun, hspec, hrest⟩
      have hempty : ∀ ip port, op = .remove ip port → ip ≠ 0 → port ≠ 0 → h.table = [] := by
        rintro ip port rfl hip hport
        by_contra hne
        exact neighRemove_not_onTable hok hne hip hport hrun hspec
      have hok' := (op.run_spec hok hempty).result hrun
      refine ⟨hempty, fun r₁ h₁ hrun₁ => ?_⟩
      rw [hrun, Except.ok.injEq, Prod.mk.injEq] at hrun₁
      rw [← hrun₁.2]
      exact (ih hok'.1).mp hrest
    · rintro ⟨hempty, hrest⟩
      obtain ⟨r, h', hrun, hok', hspec⟩ : Runs (op.run rb) h _ := op.run_spec hok hempty
      exact ⟨hok.tableOk, r, h', hrun, hspec, (ih hok').mpr (hrest r h' hrun)⟩

/-- **The neighbour table refines a bounded map** in exactly the runs in which no address is removed
from a table with entries. -/
theorem neighTable_refines_iff (rb : Balancer ℕ) (netId hostId : ObjId) (fails : ℕ → Bool) (ops : List RouteOp) :
    RunOk rb ops (Host.create netId hostId fails) ↔
      RemovesOnEmpty rb ops (Host.create netId hostId fails) :=
  (hostOk_create netId hostId fails).runOk_iff_removes ops

/-- Adding an address and removing it does not do what it should. -/
theorem not_neighTable_refines : ¬ ∀ (rb : Balancer ℕ) (netId hostId : ObjId) (fails : ℕ → Bool) (ops : List RouteOp),
    RunOk rb ops (Host.create netId hostId fails) := by
  intro hall
  have hok := hostOk_create .zero .zero fun _ => false
  obtain ⟨-, hrest⟩ := (hok.runOk_iff_removes [.add 1 1, .remove 1 1]).mp (hall Balancer.plain _ _ _ _)
  obtain ⟨r, h', hrun, -, -, hspec⟩ : Runs (neighAdd Balancer.plain 1 1) _ _ := neighAdd_spec hok
  have hempty := (hrest r h' hrun).1 1 1 rfl (by decide) (by decide)
  rw [hempty] at hspec
  cases hspec

end

end Nkfs
