import Nkfs.Route.Handshake

/-!
# Lifetimes of neighbours and host ids

A host id lives as long as a neighbour is attached to it: its reference count is the number of such
neighbours. A neighbour in the table has one reference, that of the table. Both facts are read off
the invariant `HostOk`, which every request and every outbound handshake keeps.

`nkfs_host_release` empties the list first and drops the references after that, so that in its loop
the tree and the list differ. The invariant of the loop is that of a host whose list still holds the
neighbours the loop has not reached (`Draining`).
-/

namespace Nkfs

open Lib.Program Lib.SearchTree List

/-! ### The program -/

/-- `src` is what `nkfs_server_select_one` gives, `reply` what comes back over the connection.
Source: `core/route.c` `nkfs_neigh_do_handshake` -/
def neighDoHandshake (rb : Balancer ℕ) (src : Except Errno (UInt32 × ℤ)) (reply : Except Errno ObjId)
    (p : ℕ) : R (Except Errno Unit) := do
  match ← shakeRequest src p with
  | .error err => return .error err
  | .ok none => return .ok ()
  | .ok (some _) => shakeReply rb p reply

/-- What can happen to a host. An outbound handshake is made with the neighbour at place `i` of
`host->neigh_list`. -/
inductive LifeOp where
  | add (ip : UInt32) (port : ℤ)
  | inbound (netId hostId : ObjId) (ip : UInt32) (port : ℤ)
  | outbound (i : ℕ) (src : Except Errno (UInt32 × ℤ)) (reply : Except Errno ObjId)

def LifeOp.run (rb : Balancer ℕ) : LifeOp → R Unit
  | .add ip port => do
    let _ ← neighAdd rb ip port
    return ()
  | .inbound netId hostId ip port => do
    let _ ← neighHandshake rb netId hostId ip port
    return ()
  | .outbound i src reply => do
    let h ← get
    match h.neighList[i]? with
    | none => return ()
    | some p =>
      let _ ← neighDoHandshake rb src reply p
      return ()

def LifeOp.runAll (rb : Balancer ℕ) : List LifeOp → R Unit
  | [] => return ()
  | op :: ops => do
    op.run rb
    LifeOp.runAll rb ops

/-- The second loop of `nkfs_host_release`, over the entries moved to the local list. -/
def dropAll (rb : Balancer ℕ) : List ℕ → R Unit
  | [] => return ()
  | p :: ps => do
    neighDeref rb p
    dropAll rb ps

/-- Source: `core/route.c` `nkfs_host_release` -/
def hostRelease (rb : Balancer ℕ) : R Unit := do
  let h ← get
  set { h with neighList := [] }
  dropAll rb h.neighList
  let h ← get
  if h.neighsActive ≠ 0 then stop .bug
  else if h.hostIdsActive ≠ 0 then stop .bug
  else return ()

section

variable {h h' : Host} {p q : ℕ} {ps : List ℕ} {n : Neigh} {d : HostId} {rb : Balancer ℕ}

/-! ### Draining the table -/

/-- The host in the loop of `nkfs_host_release`: `ps` are the neighbours left. -/
structure Draining (h : Host) (ps : List ℕ) : Prop where
  neighs : NeighsOk { h with neighList := ps } none
  hids : HidsOk h none

lemma Host.key_congr (hmem : h'.neighMem p = h.neighMem p) : h'.key p = h.key p := by
  rw [Host.key, Host.key, hmem]

lemma neighsRemove_run (hs : h.neighs.Sorted h.key) (hlive : ∀ p ∈ h.neighs.toList, (h.neighMem p).isSome)
    (hp : p ∈ h.neighs.toList) (hn : h.neighMem p = some n) : neighsRemove rb p h =
      .ok ((), { h with neighs := rb.erase p h.neighs, neighsActive := h.neighsActive - 1 }) := by
  have hfound : neighsLookup n.ip n.port h = .ok (some p, h) :=
    run_lift (RbTree.search_of_mem hs (compares_neighs hlive) hp (Host.key_eq hn))
  rw [neighsRemove, run_bind_ok (readNeigh_run hn), run_bind_ok hfound]
  show (if p ≠ p then _ else _ : R Unit) h = _
  rw [if_neg (not_not.mpr rfl)]
  rfl

/-- The host without the neighbour `p`. -/
def Host.withoutNeigh (h : Host) (rb : Balancer ℕ) (p : ℕ) : Host :=
  { h with neighs := rb.erase p h.neighs, neighsActive := h.neighsActive - 1 }.setNeigh p none

/-- The others are as they were when a neighbour has left. -/
lemma NeighsOk.withoutNeigh {ps : List ℕ} (hok : NeighsOk { h with neighList := p :: ps } none)
    (hs : TableStep h h' p) : NeighsOk { h'.withoutNeigh rb p with neighList := ps } none := by
  have hnodup : (p :: ps).Nodup := hok.perm.nodup_iff.mp hok.sorted.nodup
  have hnot : p ∉ ps := (nodup_cons.mp hnodup).1
  have hother : ∀ p' ≠ p, (h'.withoutNeigh rb p).neighMem p' = h.neighMem p' := fun p' hne =>
    (Host.setNeigh_other hne).trans (hs.neighMem p' hne)
  have hself : (h'.withoutNeigh rb p).neighMem p = none := Function.update_self ..
  have hof : ∀ {p' m}, (h'.withoutNeigh rb p).neighMem p' = some m → p' ≠ p ∧ h.neighMem p' = some m := by
    intro p' m hm
    rcases eq_or_ne p' p with rfl | hne
    · rw [hself] at hm
      cases hm
    · exact ⟨hne, hother p' hne ▸ hm⟩
  have htree : (rb.erase p h'.neighs).toList = h.neighs.toList.erase p := by
    rw [rb.toList_erase, hs.neighs]
  have hperm : (rb.erase p h'.neighs).toList.Perm ps := by
    rw [htree]
    exact (hok.perm.erase p).trans (by rw [erase_cons_head])
  have hsorted : (rb.erase p h'.neighs).Sorted h.key := by
    rw [hs.neighs]
    exact rb.sorted_erase hok.sorted
  exact {
    perm := hperm
    sorted := hsorted.congr fun p' hp' =>
      Host.key_congr (hother p' fun he => hnot (he ▸ hperm.mem_iff.mp hp'))
    active := by
      have hactive : h.neighsActive = (ps.length + 1 : ℕ) := hok.active
      show h'.neighsActive - 1 = _
      rw [hs.neighsActive, hactive]
      push_cast
      ring
    le_max := (Nat.le_succ _).trans hok.le_max
    live := fun p' => by
      show ((h'.withoutNeigh rb p).neighMem p').isSome ↔ p' ∈ ps ∨ _
      rcases eq_or_ne p' p with rfl | hne
      · rw [hself]
        exact ⟨nofun, fun hp' => hp'.elim (fun hp' => absurd hp' hnot) nofun⟩
      · rw [hother p' hne, hok.live p', mem_cons, or_iff_right hne]
    away := fun _ h => nomatch h
    fresh := fun p' hp' => by
      obtain ⟨m, hm⟩ := Option.isSome_iff_exists.mp hp'
      exact (hok.fresh p' (by rw [show h.neighMem p' = some m from (hof hm).2]; rfl)).trans_le hs.next
    ref := fun p' m hm => hok.ref p' m (hof hm).2
    host := fun p' m hm => by
      obtain ⟨hne, hm⟩ := hof hm
      refine (hok.host p' m hm).trans ?_
      show p' ∈ p :: ps ↔ p' ∈ ps
      rw [mem_cons, or_iff_right hne] }

/-- The last reference of a listed neighbour: it is detached, leaves the tree and is freed. -/
lemma Draining.neighDeref (hok : Draining h (p :: ps)) :
    Runs (neighDeref rb p) h fun _ h' => Draining h' ps := by
  obtain ⟨n, hn⟩ := hok.neighs.exists_neigh (mem_cons_self ..)
  have hn : h.neighMem p = some n := hn
  have href := hok.neighs.ref p n hn
  have hhost : n.host = true := (hok.neighs.host p n hn).mpr (mem_cons_self ..)
  refine Runs.step (readNeigh_run hn) ?_
  rw [href, if_neg Nat.one_ne_zero]
  refine Runs.step writeNeigh_run ?_
  rw [if_pos (show 1 - 1 = 0 from rfl)]
  have hok₁ : HidsOk (h.setNeigh p (some { n with ref := 1 - 1 })) none := hok.hids.setNeigh hn rfl rfl
  refine (neighDetachHid_spec hok₁ Host.setNeigh_self).bind fun _ h₂ ⟨hok₂, hs₂, hn₂⟩ => ?_
  refine Runs.step (readNeigh_run hn₂) ?_
  rw [hhost, if_pos rfl]
  have hs : TableStep h h₂ p := tableStep_setNeigh.trans hs₂
  have htree : ∀ p' ∈ h₂.neighs.toList, (h₂.neighMem p').isSome := fun p' hp' => by
    rcases eq_or_ne p' p with rfl | hne
    · rw [hn₂]
      rfl
    · rw [hs.neighMem p' hne]
      rw [hs.neighs] at hp'
      exact hok.neighs.tree_live hp'
  have hsorted : h₂.neighs.Sorted h₂.key := by
    rw [hs.neighs]
    refine hok.neighs.sorted.congr fun p' _ => ?_
    rcases eq_or_ne p' p with rfl | hne
    · exact (Host.key_eq hn₂).trans (Host.key_eq hn).symm
    · exact Host.key_congr (hs.neighMem p' hne)
  have hp : p ∈ h₂.neighs.toList := by
    rw [hs.neighs]
    exact hok.neighs.perm.mem_iff.mpr (mem_cons_self ..)
  refine Runs.step (neighsRemove_run hsorted htree hp hn₂) ?_
  refine Runs.intro (show _ = Except.ok ((), h₂.withoutNeigh rb p) from rfl) ⟨?_, ?_⟩
  · exact hok.neighs.withoutNeigh hs
  · -- the host ids do not see the tree of neighbours
    have hfree : HidsOk (h₂.setNeigh p none) none := hok₂.setFree (fun m hm => by
      rw [← Option.some.inj (hn₂.symm.trans hm)]) fun m hm => nomatch hm
    exact ⟨hfree.sorted, hfree.active, hfree.live, hfree.fresh, hfree.host, hfree.ref, hfree.pos,
      hfree.nodup, hfree.mem, hfree.linked, hfree.attached⟩

lemma Draining.dropAll (hok : Draining h ps) : Runs (dropAll rb ps) h fun _ h' => Draining h' [] := by
  induction ps generalizing h with
  | nil => exact Runs.pure hok
  | cons p ps ih => exact hok.neighDeref.bind fun _ h' hok' => ih hok'

/-- Nothing is left when the table is empty. -/
lemma Draining.empty (hok : Draining h []) :
    (∀ p, h.neighMem p = none) ∧ (∀ q, h.hidMem q = none) ∧ h.neighsActive = 0 ∧ h.hostIdsActive = 0 := by
  have hneigh : ∀ p, h.neighMem p = none := fun p => by
    rw [← Option.not_isSome_iff_eq_none]
    intro hp
    rcases (hok.neighs.live p).mp hp with hp | hp
    · cases hp
    · cases hp
  have hhid : ∀ q, h.hidMem q = none := fun q => by
    cases hd : h.hidMem q with
    | none => rfl
    | some d =>
      -- a host id has a reference, so it has a neighbour
      have hpos := hok.hids.pos q d hd
      rw [hok.hids.ref q d hd, if_neg (Option.some_ne_none q).symm, add_zero] at hpos
      obtain ⟨p, hp⟩ := exists_mem_of_length_pos hpos
      obtain ⟨n, hn, -⟩ := (hok.hids.mem q d hd p).mp hp
      rw [hneigh p] at hn
      cases hn
  refine ⟨hneigh, hhid, hok.neighs.active, ?_⟩
  have hnil : h.hostIds.toList = [] := eq_nil_iff_forall_not_mem.mpr fun q hq => by
    have hlive := (hok.hids.live q).mpr hq
    rw [hhid q] at hlive
    cases hlive
  rw [hok.hids.active, hnil]
  rfl

/-- **`nkfs_host_release`** frees everything and reaches neither check. -/
theorem HostOk.release (hok : HostOk h) : Runs (hostRelease rb) h fun _ h' =>
    (∀ p, h'.neighMem p = none) ∧ ∀ q, h'.hidMem q = none := by
  have hdrain : Draining { h with neighList := [] } h.neighList :=
    ⟨hok.neighs, hok.hids.sorted, hok.hids.active, hok.hids.live, hok.hids.fresh, hok.hids.host,
      hok.hids.ref, hok.hids.pos, hok.hids.nodup, hok.hids.mem, hok.hids.linked, hok.hids.attached⟩
  refine Runs.get (Runs.set (hdrain.dropAll.bind fun _ h' hok' => Runs.get ?_))
  obtain ⟨hneigh, hhid, hactive, hids⟩ := hok'.empty
  rw [if_neg (not_not.mpr hactive), if_neg (not_not.mpr hids)]
  exact Runs.pure ⟨hneigh, hhid⟩

/-! ### Runs -/

/-- The number of neighbours in the table that are attached to the host id at `q`. -/
def Host.attached (h : Host) (q : ℕ) : ℕ :=
  h.neighList.countP fun p => decide ((h.neighMem p).bind Neigh.hid = some q)

/-- Reference counts are exact. -/
structure CountsOk (h : Host) : Prop where
  hidRef : ∀ q d, q ∈ h.hostIds.toList → h.hidMem q = some d → d.ref = h.attached q
  hidLive : ∀ q, (h.hidMem q).isSome ↔ q ∈ h.hostIds.toList
  hidPresent : ∀ q, q ∈ h.hostIds.toList ↔ 0 < h.attached q
  hidNodup : h.hostIds.toList.Nodup
  hidActive : h.hostIdsActive = h.hostIds.toList.length
  neighPerm : h.neighs.toList.Perm h.neighList
  neighRef : ∀ p ∈ h.neighs.toList, ∃ n, h.neighMem p = some n ∧ n.ref = 1

lemma Host.mem_attached : p ∈ h.neighList.filter (fun p => decide ((h.neighMem p).bind Neigh.hid = some q)) ↔
    p ∈ h.neighList ∧ ∃ n, h.neighMem p = some n ∧ n.hid = some q := by
  rw [mem_filter, decide_eq_true_iff, Option.bind_eq_some_iff]

lemma HostOk.attached_eq (hok : HostOk h) (hd : h.hidMem q = some d) : h.attached q = d.neighList.length := by
  have hnodup : h.neighList.Nodup := hok.neighs.perm.nodup_iff.mp hok.neighs.sorted.nodup
  rw [Host.attached, countP_eq_length_filter]
  refine List.Perm.length_eq ((perm_ext_iff_of_nodup (hnodup.filter _) (hok.hids.nodup q d hd)).mpr ?_)
  intro p
  rw [Host.mem_attached, hok.hids.mem q d hd p, and_iff_right_iff_imp]
  rintro ⟨n, hn, -⟩
  exact ((hok.neighs.live p).mp (by rw [hn]; rfl)).resolve_right nofun

lemma HostOk.countsOk (hok : HostOk h) : CountsOk h where
  hidRef q d hq hd := by
    rw [hok.attached_eq hd, hok.hids.ref q d hd, if_neg (Option.some_ne_none q).symm, add_zero]
  hidLive := hok.hids.live
  hidPresent q := by
    rw [← hok.hids.live q]
    constructor
    · intro hq
      obtain ⟨d, hd⟩ := Option.isSome_iff_exists.mp hq
      have hpos := hok.hids.pos q d hd
      rwa [hok.hids.ref q d hd, if_neg (Option.some_ne_none q).symm, add_zero,
        ← hok.attached_eq hd] at hpos
    · intro hpos
      rw [Host.attached, countP_eq_length_filter] at hpos
      obtain ⟨p, hp⟩ := exists_mem_of_length_pos hpos
      obtain ⟨-, n, hn, hhid⟩ := Host.mem_attached.mp hp
      exact hok.hids.attached p n hn q hhid
  hidNodup := hok.hids.sorted.nodup
  hidActive := hok.hids.active
  neighPerm := hok.neighs.perm
  neighRef p hp := by
    obtain ⟨n, hn⟩ := Option.isSome_iff_exists.mp (hok.neighs.tree_live hp)
    exact ⟨n, hn, hok.neighs.ref p n hn⟩

/-- An outbound handshake attaches a neighbour that is not attached, or changes no entry. -/
lemma neighDoHandshake_spec {src : Except Errno (UInt32 × ℤ)} {reply : Except Errno ObjId}
    (hok : HostOk h) (hset : AllSettled h) (hp : p ∈ h.neighList) :
    Runs (neighDoHandshake rb src reply p) h fun _ h' => HostOk h' ∧ AllSettled h' := by
  obtain ⟨n, hn⟩ := hok.neighs.exists_neigh hp
  obtain ⟨hinited, hshaked⟩ := hset p n hp hn
  -- a request is sent only for a neighbour that is not attached
  have hrequest : Runs (shakeRequest src p) h fun r h' => h' = h ∧
      ∀ req, r = .ok (some req) → n.hid = none := by
    refine Runs.step (readNeigh_run hn) (Runs.get ?_)
    rw [if_neg (by rw [hinited]; exact Bool.noConfusion)]
    cases hs : n.state.shaked with
    | true => exact Runs.pure ⟨rfl, nofun⟩
    | false =>
      rw [hs] at hshaked
      have hnone : n.hid = none := Option.not_isSome_iff_eq_none.mp (by rw [← hshaked]; exact Bool.noConfusion)
      cases src with
      | error e => exact Runs.pure ⟨rfl, nofun⟩
      | ok a =>
        dsimp only
        rw [if_neg Bool.false_ne_true]
        split_ifs
        · exact Runs.pure ⟨rfl, fun _ _ => hnone⟩
        · exact Runs.pure ⟨rfl, fun _ _ => hnone⟩
  refine hrequest.bind fun r h' ⟨heq, hfree⟩ => ?_
  subst heq
  cases r with
  | error e => exact Runs.pure ⟨hok, hset⟩
  | ok req =>
    cases req with
    | none => exact Runs.pure ⟨hok, hset⟩
    | some req =>
      have hhid := hfree req rfl
      cases reply with
      | error e => exact Runs.pure ⟨hok, hset⟩
      | ok id =>
        cases hf : h'.fails h'.next with
        | true =>
          refine Runs.step (hostIdLookupOrCreate_fails hf) (Runs.pure ⟨hok.tick, ?_⟩)
          exact (grew_tick.later (F := fun _ => True) hset).settled
        | false =>
          refine (shakeReply_spec hok hf hp hn hhid).mono ?_
          rintro _ h₂ ⟨-, hok₂, hs, -, q, hq⟩
          refine ⟨hok₂, (hs.later hset hn hhid fun m hm => ?_).settled⟩
          rw [← Option.some.inj (hq.symm.trans hm)]
          exact ⟨hinited, rfl⟩

lemma LifeOp.run_spec (op : LifeOp) (hok : HostOk h) (hset : AllSettled h) :
    Runs (op.run rb) h fun _ h' => HostOk h' ∧ AllSettled h' := by
  cases op with
  | add ip port =>
    refine (neighAdd_spec hok).bind fun _ h' ⟨hok', hgrew, _⟩ => Runs.pure ⟨hok', ?_⟩
    exact (hgrew.later (F := fun _ => True) hset).settled
  | inbound netId hostId ip port =>
    refine (neighHandshake_spec hok).bind fun _ h' ⟨hok', hgrew, _⟩ => Runs.pure ⟨hok', ?_⟩
    exact (hgrew.later (F := fun _ => True) hset).settled
  | outbound i src reply =>
    refine Runs.get ?_
    cases hp : h.neighList[i]? with
    | none => exact Runs.pure ⟨hok, hset⟩
    | some p =>
      refine (neighDoHandshake_spec hok hset (mem_of_getElem? hp)).bind fun _ h' hok' => ?_
      exact Runs.pure hok'

lemma LifeOp.runAll_spec (ops : List LifeOp) (hok : HostOk h) (hset : AllSettled h) :
    Runs (LifeOp.runAll rb ops) h fun _ h' => HostOk h' ∧ AllSettled h' := by
  induction ops generalizing h with
  | nil => exact Runs.pure ⟨hok, hset⟩
  | cons op ops ih => exact (op.run_spec hok hset).bind fun _ h' ⟨hok', hset'⟩ => ih hok' hset'

/-- **Lifetimes.** After every sequence of added neighbours, inbound and outbound handshakes, with
allocations failing at any point, the reference counts are exact, and `nkfs_host_release` then reaches
neither of its checks and leaves no neighbour and no host id in memory. As a function that touches a
freed object faults, each of them is freed once. -/
theorem lifetimes_exact (rb : Balancer ℕ) (netId hostId : ObjId) (fails : ℕ → Bool) (ops : List LifeOp) :
    Runs (LifeOp.runAll rb ops) (Host.create netId hostId fails) fun _ h => CountsOk h ∧
      Runs (hostRelease rb) h fun _ h' => (∀ p, h'.neighMem p = none) ∧ ∀ q, h'.hidMem q = none := by
  refine (LifeOp.runAll_spec ops (hostOk_create netId hostId fails) fun _ _ hp => nomatch hp).mono ?_
  intro _ h ⟨hok, _⟩
  exact ⟨hok.countsOk, hok.release⟩

end

end Nkfs
