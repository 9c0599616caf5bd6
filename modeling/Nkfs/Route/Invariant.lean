import Nkfs.Route.Host

/-!
# References and trees of a host

Between two requests every neighbour in memory is on the list and in the tree, with one reference, and
every host id in memory is in its tree, with one reference for each neighbour attached to it. Inside
a request there may be one neighbour that is not yet listed (`held` of `NeighsOk`) and one reference
on a host id that no neighbour has yet (`extra` of `HidsOk`). Each function of the model is shown to
return and to keep both, with what it does to the table.
-/

namespace Nkfs

open Lib.Program Lib.SearchTree Function List

/-! ### Keys -/

/-- Addresses in the order of `ipPortCmp`. -/
def addrKey (ip : UInt32) (port : ℤ) : ℕ ×ₗ ℤ := toLex (ip.toNat, port)

/-- Ids in the order of `objIdCmp`. -/
def idKey (id : ObjId) : ℕ ×ₗ ℕ := toLex (id.high.toNat, id.low.toNat)

lemma addrKey_inj {ip ip' : UInt32} {port port' : ℤ} :
    addrKey ip port = addrKey ip' port' ↔ ip = ip' ∧ port = port' := by
  rw [addrKey, addrKey, toLex_inj, Prod.mk.injEq, UInt32.toNat_inj]

lemma idKey_inj {id id' : ObjId} : idKey id = idKey id' ↔ id = id' := by
  rw [idKey, idKey, toLex_inj, Prod.mk.injEq, UInt64.toNat_inj, UInt64.toNat_inj]
  cases id
  cases id'
  rw [ObjId.mk.injEq]

lemma ipPortCmp_eq (ip ip' : UInt32) (port port' : ℤ) :
    ipPortCmp ip port ip' port' = compare (addrKey ip port) (addrKey ip' port') := by
  rw [ipPortCmp]
  split_ifs with hip hlt hgt hip'
  · exact (compare_lt_iff_lt.mpr (Prod.Lex.toLex_lt_toLex.mpr (.inr ⟨by rw [hip], hlt⟩))).symm
  · exact (compare_gt_iff_gt.mpr (Prod.Lex.toLex_lt_toLex.mpr (.inr ⟨by rw [hip], hgt⟩))).symm
  · exact (compare_eq_iff_eq.mpr (addrKey_inj.mpr ⟨hip, by omega⟩)).symm
  · exact (compare_gt_iff_gt.mpr (Prod.Lex.toLex_lt_toLex.mpr (.inl (UInt32.lt_iff_toNat_lt.mp hip')))).symm
  · have hlt : ip.toNat < ip'.toNat := by
      rw [gt_iff_lt, UInt32.lt_iff_toNat_lt] at hip'
      rw [← UInt32.toNat_inj] at hip
      omega
    exact (compare_lt_iff_lt.mpr (Prod.Lex.toLex_lt_toLex.mpr (.inl hlt))).symm

lemma objIdCmp_eq (id id' : ObjId) : objIdCmp id id' = compare (idKey id) (idKey id') := by
  have hhigh : id.high < id'.high ↔ id.high.toNat < id'.high.toNat := UInt64.lt_iff_toNat_lt
  have hhigh' : id'.high < id.high ↔ id'.high.toNat < id.high.toNat := UInt64.lt_iff_toNat_lt
  have hlow : id.low < id'.low ↔ id.low.toNat < id'.low.toNat := UInt64.lt_iff_toNat_lt
  have hlow' : id'.low < id.low ↔ id'.low.toNat < id.low.toNat := UInt64.lt_iff_toNat_lt
  simp only [objIdCmp, gt_iff_lt, hhigh, hhigh', hlow, hlow']
  split_ifs with h₁ h₂ h₃ h₄
  · exact (compare_gt_iff_gt.mpr (Prod.Lex.toLex_lt_toLex.mpr (.inl h₁))).symm
  · exact (compare_lt_iff_lt.mpr (Prod.Lex.toLex_lt_toLex.mpr (.inl h₂))).symm
  · exact (compare_gt_iff_gt.mpr (Prod.Lex.toLex_lt_toLex.mpr (.inr ⟨by show id'.high.toNat = _; omega, h₃⟩))).symm
  · exact (compare_lt_iff_lt.mpr (Prod.Lex.toLex_lt_toLex.mpr (.inr ⟨by show id.high.toNat = _; omega, h₄⟩))).symm
  · refine (compare_eq_iff_eq.mpr ?_).symm
    rw [idKey, idKey, toLex_inj, Prod.mk.injEq]
    omega

lemma objIdCmp_eq_iff {id id' : ObjId} : objIdCmp id id' = .eq ↔ id = id' := by
  rw [objIdCmp_eq, compare_eq_iff_eq, idKey_inj]

/-- Place of a neighbour in the tree. -/
def Host.key (h : Host) (p : ℕ) : ℕ ×ₗ ℤ :=
  match h.neighMem p with
  | none => addrKey 0 0
  | some n => addrKey n.ip n.port

/-- Place of a host id in the tree. -/
def Host.hidKey (h : Host) (q : ℕ) : ℕ ×ₗ ℕ :=
  match h.hidMem q with
  | none => idKey .zero
  | some d => idKey d.hostId

section

variable {h h' h'' : Host} {p p' q q' : ℕ} {n n' : Neigh} {d d' : HostId} {id : ObjId} {ip : UInt32}
  {port : ℤ}

lemma Host.key_eq (hn : h.neighMem p = some n) : h.key p = addrKey n.ip n.port := by
  rw [Host.key, hn]

lemma Host.hidKey_eq (hd : h.hidMem q = some d) : h.hidKey q = idKey d.hostId := by
  rw [Host.hidKey, hd]

lemma compares_neighs (hlive : ∀ p ∈ h.neighs.toList, (h.neighMem p).isSome) :
    Compares (h.neighCmp ip port) h.key (addrKey ip port) h.neighs := by
  intro p hp
  obtain ⟨n, hn⟩ := Option.isSome_iff_exists.mp (hlive p hp)
  rw [Host.key_eq hn, ← ipPortCmp_eq, Host.neighCmp, hn]

lemma compares_hids (hlive : ∀ q ∈ h.hostIds.toList, (h.hidMem q).isSome) :
    Compares (h.hidCmp id) h.hidKey (idKey id) h.hostIds := by
  intro q hq
  obtain ⟨d, hd⟩ := Option.isSome_iff_exists.mp (hlive q hq)
  rw [Host.hidKey_eq hd, ← objIdCmp_eq, Host.hidCmp, hd]

/-! ### Memory -/

lemma readNeigh_run (hn : h.neighMem p = some n) : readNeigh p h = .ok (n, h) := by
  rw [readNeigh, hn]

lemma readHid_run (hd : h.hidMem q = some d) : readHid q h = .ok (d, h) := by
  rw [readHid, hd]

lemma writeNeigh_run : writeNeigh p n h = .ok ((), h.setNeigh p (some n)) := rfl

lemma writeHid_run : writeHid q d h = .ok ((), h.setHid q (some d)) := rfl

lemma Host.setNeigh_self : (h.setNeigh p (some n)).neighMem p = some n := update_self ..

lemma Host.setHid_self : (h.setHid q (some d)).hidMem q = some d := update_self ..

lemma Host.setNeigh_setNeigh {x y : Option Neigh} : (h.setNeigh p x).setNeigh p y = h.setNeigh p y := by
  rw [Host.setNeigh, Host.setNeigh, Host.setNeigh, update_idem]

lemma Host.setHid_setHid {x y : Option HostId} : (h.setHid q x).setHid q y = h.setHid q y := by
  rw [Host.setHid, Host.setHid, Host.setHid, update_idem]

lemma Host.setNeigh_eq_self (hn : h.neighMem p = some n) : h.setNeigh p (some n) = h := by
  rw [Host.setNeigh, ← hn, update_eq_self]

lemma Host.setHid_eq_self (hd : h.hidMem q = some d) : h.setHid q (some d) = h := by
  rw [Host.setHid, ← hd, update_eq_self]

/-! ### Invariants -/

/-- The neighbours: those listed, and `held`. -/
structure NeighsOk (h : Host) (held : Option ℕ) : Prop where
  perm : h.neighs.toList.Perm h.neighList
  sorted : h.neighs.Sorted h.key
  active : h.neighsActive = h.neighList.length
  le_max : h.neighList.length ≤ routeMaxNeighs
  live : ∀ p, (h.neighMem p).isSome ↔ p ∈ h.neighList ∨ held = some p
  away : ∀ p, held = some p → p ∉ h.neighList
  fresh : ∀ p, (h.neighMem p).isSome → p < h.next
  ref : ∀ p n, h.neighMem p = some n → n.ref = 1
  host : ∀ p n, h.neighMem p = some n → (n.host = true ↔ p ∈ h.neighList)

/-- The host ids and the neighbours attached to them; `extra` has a reference more. -/
structure HidsOk (h : Host) (extra : Option ℕ) : Prop where
  sorted : h.hostIds.Sorted h.hidKey
  active : h.hostIdsActive = h.hostIds.toList.length
  live : ∀ q, (h.hidMem q).isSome ↔ q ∈ h.hostIds.toList
  fresh : ∀ q, (h.hidMem q).isSome → q < h.next
  host : ∀ q d, h.hidMem q = some d → d.host = true
  ref : ∀ q d, h.hidMem q = some d → d.ref = d.neighList.length + if extra = some q then 1 else 0
  pos : ∀ q d, h.hidMem q = some d → 0 < d.ref
  nodup : ∀ q d, h.hidMem q = some d → d.neighList.Nodup
  mem : ∀ q d, h.hidMem q = some d → ∀ p, p ∈ d.neighList ↔ ∃ n, h.neighMem p = some n ∧ n.hid = some q
  linked : ∀ p n, h.neighMem p = some n → n.linked = n.hid.isSome
  attached : ∀ p n, h.neighMem p = some n → ∀ q, n.hid = some q → (h.hidMem q).isSome

/-- The id behind a pointer to a host id; zero without one. -/
def Host.idOf (h : Host) (hid : Option ℕ) : ObjId := ((hid.bind h.hidMem).map HostId.hostId).getD .zero

/-- An entry as `nkfs_route_neigh_info` reports it. -/
def Host.info (h : Host) (p : ℕ) : NeighInfo :=
  match h.neighMem p with
  | none => ⟨0, 0, ⟨false, false, false⟩, .zero, 0, 0⟩
  | some n => ⟨n.ip, n.port, n.state, h.idOf n.hid, n.hbtTime, n.hbtDelay⟩

lemma Host.info_eq (hn : h.neighMem p = some n) :
    h.info p = ⟨n.ip, n.port, n.state, h.idOf n.hid, n.hbtTime, n.hbtDelay⟩ := by
  rw [Host.info, hn]

/-- The neighbours are as they were; the host ids they are attached to still have their ids. -/
structure HidStep (h h' : Host) : Prop where
  netId : h'.netId = h.netId
  hostId : h'.hostId = h.hostId
  neighs : h'.neighs = h.neighs
  neighList : h'.neighList = h.neighList
  neighsActive : h'.neighsActive = h.neighsActive
  neighMem : h'.neighMem = h.neighMem
  fails : h'.fails = h.fails
  next : h.next ≤ h'.next
  info : ∀ p, h'.info p = h.info p

lemma HidStep.refl (h : Host) : HidStep h h := ⟨rfl, rfl, rfl, rfl, rfl, rfl, rfl, le_refl _, fun _ => rfl⟩

lemma HidStep.trans (h₁ : HidStep h h') (h₂ : HidStep h' h'') : HidStep h h'' where
  netId := h₂.netId.trans h₁.netId
  hostId := h₂.hostId.trans h₁.hostId
  neighs := h₂.neighs.trans h₁.neighs
  neighList := h₂.neighList.trans h₁.neighList
  neighsActive := h₂.neighsActive.trans h₁.neighsActive
  neighMem := h₂.neighMem.trans h₁.neighMem
  fails := h₂.fails.trans h₁.fails
  next := h₁.next.trans h₂.next
  info p := (h₂.info p).trans (h₁.info p)

lemma NeighsOk.hidStep {held : Option ℕ} (hok : NeighsOk h held) (hs : HidStep h h') : NeighsOk h' held where
  perm := by rw [hs.neighs, hs.neighList]; exact hok.perm
  sorted := by
    rw [hs.neighs]
    exact hok.sorted.congr fun p _ => by rw [Host.key, Host.key, hs.neighMem]
  active := by rw [hs.neighsActive, hs.neighList]; exact hok.active
  le_max := by rw [hs.neighList]; exact hok.le_max
  live := by rw [hs.neighMem, hs.neighList]; exact hok.live
  away := by rw [hs.neighList]; exact hok.away
  fresh p hp := by
    rw [hs.neighMem] at hp
    exact (hok.fresh p hp).trans_le hs.next
  ref := by rw [hs.neighMem]; exact hok.ref
  host := by rw [hs.neighMem, hs.neighList]; exact hok.host

/-- Infos depend on the neighbours and on the ids of the host ids they are attached to. -/
lemma info_congr (hmem : h'.neighMem = h.neighMem) (hid : ∀ p n q, h.neighMem p = some n → n.hid = some q →
      (h'.hidMem q).map HostId.hostId = (h.hidMem q).map HostId.hostId) (p : ℕ) : h'.info p = h.info p := by
  cases hn : h.neighMem p with
  | none => rw [Host.info, Host.info, hmem, hn]
  | some n =>
    rw [Host.info_eq hn, Host.info_eq (hmem ▸ hn), NeighInfo.mk.injEq]
    refine ⟨rfl, rfl, rfl, ?_, rfl, rfl⟩
    cases hq : n.hid with
    | none => rfl
    | some q => exact congrArg (fun x => x.getD ObjId.zero) (hid p n q hn hq)

/-! ### Host ids -/

/-- An address taken. -/
def Host.tick (h : Host) : Host := { h with next := h.next + 1 }

lemma hidStep_tick : HidStep h h.tick := ⟨rfl, rfl, rfl, rfl, rfl, rfl, rfl, Nat.le_succ _, fun _ => rfl⟩

lemma HidsOk.tick {extra : Option ℕ} (hok : HidsOk h extra) : HidsOk h.tick extra :=
  { hok with fresh := fun q hq => (hok.fresh q hq).trans (Nat.lt_succ_self _) }

/-- A host id that keeps its id. -/
lemma hidStep_setHid (hd : h.hidMem q = some d) (hid : d'.hostId = d.hostId) :
    HidStep h (h.setHid q (some d')) := by
  refine ⟨rfl, rfl, rfl, rfl, rfl, rfl, rfl, le_refl _, info_congr rfl fun p n q' _ _ => ?_⟩
  rcases eq_or_ne q' q with rfl | hne
  · rw [Host.setHid_self, hd, Option.map_some, Option.map_some, hid]
  · rw [show (h.setHid q (some d')).hidMem q' = h.hidMem q' from update_of_ne hne ..]

lemma kmalloc_fails (hf : h.fails h.next = true) : kmalloc h = .ok (none, h.tick) := by
  show Except.ok (if h.fails h.next = true then none else some h.next, h.tick) = _
  rw [if_pos hf]

lemma kmalloc_ok (hf : h.fails h.next = false) : kmalloc h = .ok (some h.next, h.tick) := by
  show Except.ok (if h.fails h.next = true then none else some h.next, h.tick) = _
  rw [if_neg (by rw [hf]; exact Bool.false_ne_true)]

lemma hidRef_run (hd : h.hidMem q = some d) (hpos : 0 < d.ref) :
    hidRef q h = .ok ((), h.setHid q (some { d with ref := d.ref + 1 })) := by
  rw [hidRef, run_bind_ok (readHid_run hd), if_neg hpos.ne']
  rfl

/-- Dropping a reference that is not the last one. -/
lemma hidDeref_run {rb : Balancer ℕ} (hd : h.hidMem q = some d) (hpos : 1 < d.ref) :
    hidDeref rb q h = .ok ((), h.setHid q (some { d with ref := d.ref - 1 })) := by
  rw [hidDeref, run_bind_ok (readHid_run hd), if_neg (by omega)]
  show (writeHid q _ >>= _) h = _
  rw [run_bind_ok writeHid_run, if_neg (by omega)]
  rfl

/-- Dropping the last reference of a host id that was not inserted. -/
lemma hidDeref_free {rb : Balancer ℕ} (hd : h.hidMem q = some d) (href : d.ref = 1)
    (hhost : d.host = false) : hidDeref rb q h = .ok ((), h.setHid q none) := by
  rw [hidDeref, run_bind_ok (readHid_run hd), if_neg (by omega)]
  show (writeHid q _ >>= _) h = _
  rw [run_bind_ok writeHid_run, if_pos (by omega), hidRelease,
    run_bind_ok (readHid_run Host.setHid_self), if_neg (by rw [hhost]; exact Bool.false_ne_true)]
  show Except.ok ((), (h.setHid q _).setHid q none) = _
  rw [Host.setHid_setHid]

lemma hostIdsLookup_of_mem (hs : h.hostIds.Sorted h.hidKey)
    (hlive : ∀ q ∈ h.hostIds.toList, (h.hidMem q).isSome) (hq : q ∈ h.hostIds.toList)
    (hd : h.hidMem q = some d) : hostIdsLookup d.hostId h = .ok (some q, h) :=
  run_lift (RbTree.search_of_mem hs (compares_hids hlive) hq (Host.hidKey_eq hd))

lemma hostIdsLookup_of_notMem (hlive : ∀ q ∈ h.hostIds.toList, (h.hidMem q).isSome)
    (hid : ∀ q d, q ∈ h.hostIds.toList → h.hidMem q = some d → d.hostId ≠ id) :
    hostIdsLookup id h = .ok (none, h) := by
  refine run_lift (RbTree.search_of_notMem (compares_hids hlive) fun q hq => ?_)
  obtain ⟨d, hd⟩ := Option.isSome_iff_exists.mp (hlive q hq)
  rw [Host.hidKey_eq hd, Ne, idKey_inj]
  exact hid q d hq hd

lemma Host.setHid_other {x : Option HostId} (hne : q ≠ q') : (h.setHid q' x).hidMem q = h.hidMem q :=
  update_of_ne hne ..

lemma Host.setHid_cases (hq : (h.setHid q' (some d')).hidMem q = some d) :
    (q = q' ∧ d = d') ∨ (q ≠ q' ∧ h.hidMem q = some d) := by
  rcases eq_or_ne q q' with rfl | hne
  · rw [Host.setHid_self, Option.some.injEq] at hq
    exact .inl ⟨rfl, hq.symm⟩
  · rw [Host.setHid_other hne] at hq
    exact .inr ⟨hne, hq⟩

/-- Host ids with the same ids have the same places. -/
lemma Host.hidKey_setHid (hd : h.hidMem q' = some d) (e : HostId) (hid : e.hostId = d.hostId) (q : ℕ) :
    (h.setHid q' (some e)).hidKey q = h.hidKey q := by
  rcases eq_or_ne q q' with rfl | hne
  · rw [Host.hidKey_eq Host.setHid_self, Host.hidKey_eq hd, hid]
  · rw [Host.hidKey, Host.hidKey, Host.setHid_other hne]

lemma Host.isSome_setHid (hd : h.hidMem q' = some d) (q : ℕ) :
    ((h.setHid q' (some d')).hidMem q).isSome = (h.hidMem q).isSome := by
  rcases eq_or_ne q q' with rfl | hne
  · rw [Host.setHid_self, hd]
    rfl
  · rw [Host.setHid_other hne]

/-- One host id changed, came or went: everything is to be shown for it alone. -/
lemma HidsOk.replace {extra extra' : Option ℕ} (hok : HidsOk h extra) (hneigh : h'.neighMem = h.neighMem)
    (hother : ∀ q' ≠ q, h'.hidMem q' = h.hidMem q') (hnext : h.next ≤ h'.next)
    (hextra : ∀ q' ≠ q, (extra' = some q' ↔ extra = some q')) (hsorted : h'.hostIds.Sorted h'.hidKey)
    (hactive : h'.hostIdsActive = h'.hostIds.toList.length)
    (hlist : ∀ q' ≠ q, (q' ∈ h'.hostIds.toList ↔ q' ∈ h.hostIds.toList))
    (hlive : (h'.hidMem q).isSome ↔ q ∈ h'.hostIds.toList)
    (hatt : ∀ p n, h.neighMem p = some n → n.hid = some q → (h'.hidMem q).isSome)
    (hcell : ∀ d, h'.hidMem q = some d → q < h'.next ∧ d.host = true ∧ 0 < d.ref ∧ d.neighList.Nodup ∧
      d.ref = d.neighList.length + (if extra' = some q then 1 else 0) ∧
      ∀ p, p ∈ d.neighList ↔ ∃ n, h.neighMem p = some n ∧ n.hid = some q) : HidsOk h' extra' := by
  have hof : ∀ {q' d'}, h'.hidMem q' = some d' → q' = q ∨ q' ≠ q ∧ h.hidMem q' = some d' := fun {q' d'} hd' => by
    rcases eq_or_ne q' q with heq | hne
    · exact .inl heq
    · exact .inr ⟨hne, hother q' hne ▸ hd'⟩
  refine ⟨hsorted, hactive, fun q' => ?_, fun q' hq' => ?_, fun q' d' hd' => ?_, fun q' d' hd' => ?_, fun q' d' hd' => ?_,
    fun q' d' hd' => ?_, fun q' d' hd' => ?_, hneigh ▸ hok.linked, fun p n hn q' hq' => ?_⟩
  · rcases eq_or_ne q' q with rfl | hne
    · exact hlive
    · rw [hother q' hne, hlist q' hne]
      exact hok.live q'
  · obtain ⟨d', hd'⟩ := Option.isSome_iff_exists.mp hq'
    rcases hof hd' with rfl | ⟨-, hd⟩
    · exact (hcell d' hd').1
    · exact (hok.fresh q' (by rw [hd]; rfl)).trans_le hnext
  · rcases hof hd' with rfl | ⟨-, hd⟩
    · exact (hcell d' hd').2.1
    · exact hok.host q' d' hd
  · rcases hof hd' with rfl | ⟨hne, hd⟩
    · exact (hcell d' hd').2.2.2.2.1
    · rw [hok.ref q' d' hd, if_congr (hextra q' hne) rfl rfl]
  · rcases hof hd' with rfl | ⟨-, hd⟩
    · exact (hcell d' hd').2.2.1
    · exact hok.pos q' d' hd
  · rcases hof hd' with rfl | ⟨-, hd⟩
    · exact (hcell d' hd').2.2.2.1
    · exact hok.nodup q' d' hd
  · rw [hneigh]
    rcases hof hd' with rfl | ⟨-, hd⟩
    · exact (hcell d' hd').2.2.2.2.2
    · exact hok.mem q' d' hd
  · rw [hneigh] at hn
    rcases eq_or_ne q' q with rfl | hne
    · exact hatt p n hn hq'
    · rw [hother q' hne]
      exact hok.attached p n hn q' hq'

/-- Another count on a host id. -/
lemma HidsOk.setRef {extra extra' : Option ℕ} {r : ℕ} (hok : HidsOk h extra) (hd : h.hidMem q = some d)
    (hr : r = d.neighList.length + if extra' = some q then 1 else 0) (hpos : 0 < r)
    (hother : ∀ q' ≠ q, (extra' = some q' ↔ extra = some q')) :
    HidsOk (h.setHid q (some { d with ref := r })) extra' := by
  have hsome : (h.hidMem q).isSome := by rw [hd]; rfl
  refine hok.replace rfl (fun q' hne => Host.setHid_other hne) le_rfl hother
    (hok.sorted.congr fun q' _ => Host.hidKey_setHid hd { d with ref := r } rfl q') hok.active (fun _ _ => Iff.rfl)
    ?_ (fun _ _ _ _ => by rw [Host.setHid_self]; rfl) fun e he => ?_
  · rw [Host.isSome_setHid hd]
    exact hok.live q
  · rw [Host.setHid_self, Option.some.injEq] at he
    subst he
    exact ⟨hok.fresh q hsome, hok.host q d hd, hpos, hok.nodup q d hd, hr, hok.mem q d hd⟩

lemma HidsOk.none_of_next {extra : Option ℕ} (hok : HidsOk h extra) : h.hidMem h.next = none := by
  rcases hx : h.hidMem h.next with _ | d
  · rfl
  · exact absurd (hok.fresh h.next (by rw [hx]; rfl)) (lt_irrefl _)

lemma HidsOk.ne_next {extra : Option ℕ} (hok : HidsOk h extra) (hq : (h.hidMem q).isSome) : q ≠ h.next :=
  (hok.fresh q hq).ne

/-- A new host id. -/
def Host.withHid (h : Host) (t : RbTree ℕ) (q : ℕ) (id : ObjId) : Host :=
  { h with hostIds := t, hostIdsActive := h.hostIdsActive + 1 }.setHid q (some ⟨1, true, [], id⟩)

lemma HidsOk.withHid {t : RbTree ℕ} (hok : HidsOk h none) (hperm : t.toList.Perm (h.next :: h.hostIds.toList))
    (hsorted : t.Sorted (h.tick.withHid t h.next id).hidKey) :
    HidsOk (h.tick.withHid t h.next id) (some h.next) := by
  have hself : (h.tick.withHid t h.next id).hidMem h.next = some ⟨1, true, [], id⟩ := Host.setHid_self
  have hnot : ∀ p n, h.neighMem p = some n → n.hid ≠ some h.next := fun p n hn hq => by
    have hsome := hok.attached p n hn _ hq
    rw [hok.none_of_next] at hsome
    cases hsome
  have hmem : ∀ q, q ∈ (h.tick.withHid t h.next id).hostIds.toList ↔ q = h.next ∨ q ∈ h.hostIds.toList := fun q => by
    show q ∈ t.toList ↔ _
    rw [hperm.mem_iff, mem_cons]
  refine hok.replace (q := h.next) rfl (fun q hne => Host.setHid_other hne) (Nat.le_succ _) (fun q hne => ?_) hsorted ?_
    (fun q hne => (hmem q).trans (or_iff_right hne)) ?_ (fun p n hn hq => absurd hq (hnot p n hn)) fun d hd => ?_
  · exact ⟨fun heq => absurd (Option.some.inj heq).symm hne, nofun⟩
  · show h.hostIdsActive + 1 = (t.toList.length : ℤ)
    rw [hok.active, hperm.length_eq, length_cons]
    omega
  · rw [hself, hmem]
    exact iff_of_true rfl (.inl rfl)
  · rw [hself, Option.some.injEq] at hd
    subst hd
    refine ⟨Nat.lt_succ_self _, rfl, Nat.one_pos, nodup_nil, by rw [if_pos rfl]; rfl, fun p => ?_⟩
    exact iff_of_false not_mem_nil fun ⟨n, hn, hq⟩ => hnot p n hn hq

/-- A host id without neighbours is removed. -/
def Host.withoutHid (h : Host) (rb : Balancer ℕ) (q : ℕ) : Host :=
  { h with hostIds := rb.erase q h.hostIds, hostIdsActive := h.hostIdsActive - 1 }.setHid q none

variable {rb : Balancer ℕ}

lemma HidsOk.withoutHid (hok : HidsOk h (some q)) (hd : h.hidMem q = some d) (hempty : d.neighList = []) :
    HidsOk (h.withoutHid rb q) none := by
  have hother : ∀ q' ≠ q, (h.withoutHid rb q).hidMem q' = h.hidMem q' := fun q' hne => Host.setHid_other hne
  have hself : (h.withoutHid rb q).hidMem q = none := update_self ..
  have hmem : ∀ q', q' ∈ (h.withoutHid rb q).hostIds.toList ↔ q' ≠ q ∧ q' ∈ h.hostIds.toList := fun q' => by
    show q' ∈ (rb.erase q h.hostIds).toList ↔ _
    rw [rb.toList_erase, hok.sorted.nodup.mem_erase_iff]
  refine hok.replace rfl hother le_rfl (fun q' hne => ?_) ((rb.sorted_erase hok.sorted).congr fun q' hq' => ?_) ?_
    (fun q' hne => (hmem q').trans (and_iff_right hne)) ?_ (fun p n hn hid => ?_) fun d' hd' => ?_
  · exact ⟨nofun, fun heq => absurd (Option.some.inj heq).symm hne⟩
  · rw [Host.hidKey, Host.hidKey, hother q' ((hmem q').mp hq').1]
  · have hq : q ∈ h.hostIds.toList := (hok.live q).mp (by rw [hd]; rfl)
    have hpos := length_pos_of_mem hq
    show h.hostIdsActive - 1 = ((rb.erase q h.hostIds).toList.length : ℤ)
    rw [hok.active, rb.toList_erase, length_erase_of_mem hq]
    omega
  · rw [hself, hmem]
    exact iff_of_false nofun fun hq => hq.1 rfl
  · have hp := (hok.mem q d hd p).mpr ⟨n, hn, hid⟩
    rw [hempty] at hp
    cases hp
  · cases hself.symm.trans hd'

lemma hidStep_withoutHid (hok : HidsOk h (some q)) (hd : h.hidMem q = some d) (hempty : d.neighList = []) :
    HidStep h (h.withoutHid rb q) := by
  refine ⟨rfl, rfl, rfl, rfl, rfl, rfl, rfl, le_refl _, info_congr rfl fun p n q' hn hq' => ?_⟩
  rcases eq_or_ne q' q with rfl | hne
  · have hp := (hok.mem q' d hd p).mpr ⟨n, hn, hq'⟩
    rw [hempty] at hp
    cases hp
  · rw [show (h.withoutHid rb q).hidMem q' = h.hidMem q' from Host.setHid_other hne]

lemma hostIdsRemove_run (hs : h.hostIds.Sorted h.hidKey)
    (hlive : ∀ q ∈ h.hostIds.toList, (h.hidMem q).isSome) (hq : q ∈ h.hostIds.toList)
    (hd : h.hidMem q = some d) : hostIdsRemove rb q h =
      .ok ((), { h with hostIds := rb.erase q h.hostIds, hostIdsActive := h.hostIdsActive - 1 }) := by
  rw [hostIdsRemove, run_bind_ok (readHid_run hd), run_bind_ok (hostIdsLookup_of_mem hs hlive hq hd)]
  show (if q ≠ q then _ else _ : R Unit) h = _
  rw [if_neg (not_not.mpr rfl)]
  rfl

/-- Dropping the last reference of a host id in the tree. -/
lemma hidDeref_last (hok : HidsOk h (some q)) (hd : h.hidMem q = some d) (href : d.ref = 1) :
    hidDeref rb q h = .ok ((), h.withoutHid rb q) := by
  have hsorted : (h.setHid q (some { d with ref := d.ref - 1 })).hostIds.Sorted
      (h.setHid q (some { d with ref := d.ref - 1 })).hidKey :=
    hok.sorted.congr fun q' _ => Host.hidKey_setHid hd { d with ref := d.ref - 1 } rfl q'
  have hlive : ∀ q' ∈ h.hostIds.toList,
      ((h.setHid q (some { d with ref := d.ref - 1 })).hidMem q').isSome := fun q' hq' => by
    rw [Host.isSome_setHid hd]
    exact (hok.live q').mpr hq'
  rw [hidDeref, run_bind_ok (readHid_run hd), if_neg (by omega)]
  show (writeHid q _ >>= _) h = _
  rw [run_bind_ok writeHid_run, if_pos (by omega), hidRelease,
    run_bind_ok (readHid_run Host.setHid_self), if_pos (hok.host q d hd), run_bind_ok
      (hostIdsRemove_run hsorted hlive ((hok.live q).mp (by rw [hd]; rfl)) Host.setHid_self)]
  show Except.ok ((), Host.setHid _ q none) = _
  simp only [Host.withoutHid, Host.setHid, update_idem]

/-- **Dropping the reference that no neighbour has.** -/
theorem hidDeref_spec (hok : HidsOk h (some q)) (hd : h.hidMem q = some d) :
    Runs (hidDeref rb q) h fun _ h' => HidsOk h' none ∧ HidStep h h' := by
  have href := hok.ref q d hd
  rw [if_pos rfl] at href
  rcases Nat.eq_zero_or_pos d.neighList.length with hzero | hpos
  · have hempty := List.length_eq_zero_iff.mp hzero
    exact Runs.intro (hidDeref_last hok hd (by omega))
      ⟨hok.withoutHid hd hempty, hidStep_withoutHid hok hd hempty⟩
  · refine Runs.intro (hidDeref_run hd (by omega)) ⟨hok.setRef hd ?_ (by omega) fun q' hne => ?_,
      hidStep_setHid hd rfl⟩
    · rw [if_neg (Option.some_ne_none q).symm]
      omega
    · exact ⟨fun h => (nomatch h), fun h => absurd (Option.some.inj h).symm hne⟩

lemma hidAlloc_run (hf : h.fails h.next = false) :
    hidAlloc h = .ok (some h.next, h.tick.setHid h.next (some ⟨1, false, [], .zero⟩)) := by
  rw [hidAlloc, run_bind_ok (kmalloc_ok hf)]
  rfl

/-- A host id in memory and not yet in the tree. -/
lemma hidAlloc_tree (hok : HidsOk h none) (id : ObjId) :
    let s := h.tick.setHid h.next (some ⟨1, false, [], id⟩)
    s.hostIds.Sorted s.hidKey ∧ ∀ q ∈ s.hostIds.toList, (s.hidMem q).isSome ∧ s.hidMem q = h.hidMem q := by
  have hother : ∀ q ∈ h.hostIds.toList,
      (h.tick.setHid h.next (some ⟨1, false, [], id⟩)).hidMem q = h.hidMem q :=
    fun q hq => Host.setHid_other (hok.ne_next ((hok.live q).mpr hq))
  refine ⟨hok.sorted.congr fun q hq => ?_, fun q hq => ⟨?_, hother q hq⟩⟩
  · rw [Host.hidKey, Host.hidKey, hother q hq]
  · rw [hother q hq]
    exact (hok.live q).mpr hq

/-- `hostIdLookupOrCreate` after the allocation. -/
lemma hostIdLookupOrCreate_eq (hf : h.fails h.next = false) : hostIdLookupOrCreate rb id h = (do
      let inserted ← hostIdInsert rb h.next
      hidDeref rb h.next
      return some inserted : R (Option ℕ)) (h.tick.setHid h.next (some ⟨1, false, [], id⟩)) := by
  rw [hostIdLookupOrCreate, run_bind_ok (hidAlloc_run hf)]
  show (readHid h.next >>= _) _ = _
  rw [run_bind_ok (readHid_run Host.setHid_self)]
  show (writeHid h.next _ >>= _) _ = _
  rw [run_bind_ok writeHid_run, Host.setHid_setHid]

lemma hostIdLookupOrCreate_fails (hf : h.fails h.next = true) :
    hostIdLookupOrCreate rb id h = .ok (none, h.tick) := by
  have halloc : hidAlloc h = .ok (none, h.tick) := by
    rw [hidAlloc, run_bind_ok (kmalloc_fails hf)]
    rfl
  rw [hostIdLookupOrCreate, run_bind_ok halloc]
  rfl

/-- **A reference on the host id with the given id**, which is created if there is none. -/
theorem hostIdLookupOrCreate_spec (hok : HidsOk h none) (hf : h.fails h.next = false) :
    Runs (hostIdLookupOrCreate rb id) h fun r h' => ∃ q d, r = some q ∧ h'.hidMem q = some d ∧
      d.hostId = id ∧ HidsOk h' (some q) ∧ HidStep h h' ∧ h'.next = h.next + 1 := by
  obtain ⟨hsorted, hsame⟩ := hidAlloc_tree hok id
  have hlive := fun q hq => (hsame q hq).1
  have hself : (h.tick.setHid h.next (some ⟨1, false, [], id⟩)).hidMem h.next = _ := Host.setHid_self
  rw [Runs, hostIdLookupOrCreate_eq hf]
  by_cases hex : ∃ q d, h.hidMem q = some d ∧ d.hostId = id
  · -- the id is known: its host id gets the reference, the new one is freed
    obtain ⟨q, d, hd, hid⟩ := hex
    have hq : q ∈ h.hostIds.toList := (hok.live q).mp (by rw [hd]; rfl)
    have hne : q ≠ h.next := hok.ne_next (by rw [hd]; rfl)
    have hd₂ := ((hsame q hq).2).trans hd
    have hfound := hostIdsLookup_of_mem hsorted hlive hq hd₂
    rw [hid] at hfound
    have hinsert : hostIdInsert rb h.next (h.tick.setHid h.next (some ⟨1, false, [], id⟩)) =
        .ok (q, (h.tick.setHid h.next (some ⟨1, false, [], id⟩)).setHid q
          (some { d with ref := d.ref + 1 })) := by
      rw [hostIdInsert, run_bind_ok (readHid_run hself), run_get, run_bind_ok hfound]
      show (hidRef q >>= _) _ = _
      rw [run_bind_ok (hidRef_run hd₂ (hok.pos q d hd))]
      rfl
    have hself' : ((h.tick.setHid h.next (some ⟨1, false, [], id⟩)).setHid q
        (some { d with ref := d.ref + 1 })).hidMem h.next = some ⟨1, false, [], id⟩ :=
      (Host.setHid_other hne.symm).trans hself
    rw [run_bind_ok hinsert, run_bind_ok (hidDeref_free hself' rfl rfl)]
    have hstate : ((h.tick.setHid h.next (some ⟨1, false, [], id⟩)).setHid q
        (some { d with ref := d.ref + 1 })).setHid h.next none =
        h.tick.setHid q (some { d with ref := d.ref + 1 }) := by
      simp only [Host.setHid, Host.tick, Host.mk.injEq, true_and, and_true]
      rw [Function.update_comm hne, Function.update_idem, ← hok.none_of_next,
        Function.update_eq_self]
    rw [hstate]
    refine ⟨_, _, rfl, q, _, rfl, Host.setHid_self, hid, hok.tick.setRef hd ?_ (Nat.succ_pos _) fun q' hq' => ?_,
      hidStep_tick.trans (hidStep_setHid hd rfl), rfl⟩
    · rw [if_pos rfl, hok.ref q d hd, if_neg (Option.some_ne_none q).symm]
    · exact ⟨fun h => absurd (Option.some.inj h).symm hq', fun h => (nomatch h)⟩
  · -- the id is new
    have hnew : ∀ q d, q ∈ h.hostIds.toList →
        (h.tick.setHid h.next (some ⟨1, false, [], id⟩)).hidMem q = some d → d.hostId ≠ id :=
      fun q d hq hd heq => hex ⟨q, d, ((hsame q hq).2).symm.trans hd, heq⟩
    have hkey : idKey id = (h.tick.setHid h.next (some ⟨1, false, [], id⟩)).hidKey h.next :=
      (Host.hidKey_eq hself).symm
    have hcomp : Compares (Host.hidCmp _ id) _ (idKey id) _ := compares_hids hlive
    obtain ⟨t, hlink, hperm, ht⟩ := RbTree.link_spec (x := h.next) hsorted (hkey ▸ hcomp) fun q hq => by
      obtain ⟨d, hd⟩ := Option.isSome_iff_exists.mp (hlive q hq)
      rw [← hkey, Host.hidKey_eq hd, Ne, idKey_inj]
      exact hnew q d hq hd
    rw [← rb.toList_insertColor h.next t] at hperm
    have hwith : h.tick.withHid (rb.insertColor h.next t) h.next id =
        { h.tick.setHid h.next (some ⟨1, false, [], id⟩) with
          hostIds := rb.insertColor h.next t
          hostIdsActive := h.hostIdsActive + 1 }.setHid h.next (some ⟨1, true, [], id⟩) :=
      Host.setHid_setHid.symm
    have hinsert : hostIdInsert rb h.next (h.tick.setHid h.next (some ⟨1, false, [], id⟩)) =
        .ok (h.next, (h.tick.withHid (rb.insertColor h.next t) h.next id).setHid h.next
          (some ⟨2, true, [], id⟩)) := by
      rw [hostIdInsert, run_bind_ok (readHid_run hself), run_get,
        run_bind_ok (hostIdsLookup_of_notMem hlive hnew)]
      refine Eq.trans (run_bind_ok (run_lift hlink)) ?_
      rw [hwith]
      show (hidRef h.next >>= fun _ => pure h.next) (Host.setHid _ h.next _) = _
      rw [run_bind_ok (hidRef_run Host.setHid_self Nat.one_pos)]
      rfl
    have hlast : (h.tick.withHid (rb.insertColor h.next t) h.next id).hidMem h.next =
        some ⟨1, true, [], id⟩ := Host.setHid_self
    have hderef : hidDeref rb h.next ((h.tick.withHid (rb.insertColor h.next t) h.next id).setHid h.next
        (some ⟨2, true, [], id⟩)) = .ok ((), h.tick.withHid (rb.insertColor h.next t) h.next id) := by
      rw [hidDeref_run Host.setHid_self Nat.one_lt_two, Host.setHid_setHid]
      exact congrArg (fun s => Except.ok ((), s)) (Host.setHid_eq_self hlast)
    rw [run_bind_ok hinsert, run_bind_ok hderef]
    refine ⟨_, _, rfl, h.next, _, rfl, hlast, rfl, ?_, ?_, rfl⟩
    · refine hok.withHid hperm ((rb.sorted_insertColor ht).congr fun q _ => ?_)
      rw [hwith]
      exact Host.hidKey_setHid hself ⟨1, true, [], id⟩ rfl q
    · refine ⟨rfl, rfl, rfl, rfl, rfl, rfl, rfl, Nat.le_succ _, info_congr rfl fun p n q hn hq => ?_⟩
      have hne := hok.ne_next (hok.attached p n hn q hq)
      exact congrArg (Option.map HostId.hostId) (Host.setHid_other hne)

end

end Nkfs
