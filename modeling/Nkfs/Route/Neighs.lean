import Nkfs.Route.Invariant

/-!
# Neighbours in and out of the table

A request works on one neighbour that is not listed: it is allocated, attached to a host id, and then
inserted (`hostAddNeigh_new`) or dropped (`neighDeref_held`). A step on it leaves the listed
neighbours as they were (`TableStep`).
-/

namespace Nkfs

open Lib.Program Lib.SearchTree List

section

variable {h h' h'' : Host} {p p' q q' : ℕ} {n n' : Neigh} {d d' : HostId} {id : ObjId} {ip : UInt32}
  {port : ℤ} {rb : Balancer ℕ}

/-! ### The neighbour in hand -/

lemma Host.setNeigh_other {x : Option Neigh} (hne : p ≠ p') : (h.setNeigh p' x).neighMem p = h.neighMem p :=
  Function.update_of_ne hne ..

lemma Host.setNeigh_cases (hn : (h.setNeigh p' (some n')).neighMem p = some n) :
    (p = p' ∧ n = n') ∨ (p ≠ p' ∧ h.neighMem p = some n) := by
  rcases eq_or_ne p p' with rfl | hne
  · rw [Host.setNeigh_self, Option.some.injEq] at hn
    exact .inl ⟨rfl, hn.symm⟩
  · rw [Host.setNeigh_other hne] at hn
    exact .inr ⟨hne, hn⟩

/-- A step that touches the neighbour `p`, which is not listed: the others are as they were. -/
structure TableStep (h h' : Host) (p : ℕ) : Prop where
  netId : h'.netId = h.netId
  hostId : h'.hostId = h.hostId
  neighs : h'.neighs = h.neighs
  neighList : h'.neighList = h.neighList
  neighsActive : h'.neighsActive = h.neighsActive
  neighMem : ∀ p' ≠ p, h'.neighMem p' = h.neighMem p'
  fails : h'.fails = h.fails
  next : h.next ≤ h'.next
  info : ∀ p' ≠ p, h'.info p' = h.info p'

lemma HidStep.tableStep (hs : HidStep h h') : TableStep h h' p :=
  ⟨hs.netId, hs.hostId, hs.neighs, hs.neighList, hs.neighsActive, fun p' _ => by rw [hs.neighMem], hs.fails,
    hs.next, fun p' _ => hs.info p'⟩

lemma TableStep.trans (h₁ : TableStep h h' p) (h₂ : TableStep h' h'' p) : TableStep h h'' p where
  netId := h₂.netId.trans h₁.netId
  hostId := h₂.hostId.trans h₁.hostId
  neighs := h₂.neighs.trans h₁.neighs
  neighList := h₂.neighList.trans h₁.neighList
  neighsActive := h₂.neighsActive.trans h₁.neighsActive
  neighMem p' hne := (h₂.neighMem p' hne).trans (h₁.neighMem p' hne)
  fails := h₂.fails.trans h₁.fails
  next := h₁.next.trans h₂.next
  info p' hne := (h₂.info p' hne).trans (h₁.info p' hne)

lemma tableStep_setNeigh {x : Option Neigh} : TableStep h (h.setNeigh p x) p := by
  refine ⟨rfl, rfl, rfl, rfl, rfl, fun p' hne => Host.setNeigh_other hne, rfl, le_refl _, fun p' hne => ?_⟩
  rw [Host.info, Host.info, Host.setNeigh_other hne]
  rfl

/-- The neighbours after a step that touches one that is not listed. -/
lemma NeighsOk.tableStep {held held' : Option ℕ} (hok : NeighsOk h held) (hs : TableStep h h' p)
    (hp : p ∉ h.neighList) (hlive : ∀ p', held' = some p' ↔ p' = p ∧ (h'.neighMem p).isSome)
    (hheld : ∀ p' ≠ p, held ≠ some p') (hfresh : (h'.neighMem p).isSome → p < h'.next)
    (hcell : ∀ n, h'.neighMem p = some n → n.ref = 1 ∧ n.host = false) : NeighsOk h' held' where
  perm := by rw [hs.neighs, hs.neighList]; exact hok.perm
  sorted := by
    rw [hs.neighs]
    refine hok.sorted.congr fun p' hp' => ?_
    rw [Host.key, Host.key, hs.neighMem p' fun he => hp (hok.perm.mem_iff.mp (he ▸ hp'))]
  active := by rw [hs.neighsActive, hs.neighList]; exact hok.active
  le_max := by rw [hs.neighList]; exact hok.le_max
  live p' := by
    rw [hlive, hs.neighList]
    rcases eq_or_ne p' p with rfl | hne
    · exact ⟨fun h => .inr ⟨rfl, h⟩, fun h => h.elim (fun h => absurd h hp) And.right⟩
    · rw [hs.neighMem p' hne, hok.live p', or_iff_left (hheld p' hne), or_iff_left fun h => hne h.1]
  away p' hp' := by
    rw [hs.neighList, ((hlive p').mp hp').1]
    exact hp
  fresh p' hp' := by
    rcases eq_or_ne p' p with rfl | hne
    · exact hfresh hp'
    · rw [hs.neighMem p' hne] at hp'
      exact (hok.fresh p' hp').trans_le hs.next
  ref p' n hn := by
    rcases eq_or_ne p' p with rfl | hne
    · exact (hcell n hn).1
    · exact hok.ref p' n (hs.neighMem p' hne ▸ hn)
  host p' n hn := by
    rw [hs.neighList]
    rcases eq_or_ne p' p with rfl | hne
    · rw [(hcell n hn).2]
      exact iff_of_false Bool.false_ne_true hp
    · exact hok.host p' n (hs.neighMem p' hne ▸ hn)

/-- The neighbour in hand is changed. -/
lemma NeighsOk.setHeld (hok : NeighsOk h (some p)) (hs : TableStep h h' p) (hn : h'.neighMem p = some n)
    (href : n.ref = 1) (hhost : n.host = false) : NeighsOk h' (some p) := by
  refine hok.tableStep hs (hok.away p rfl) (fun p' => ?_) (fun p' hne h => hne (Option.some.inj h).symm)
    (fun _ => ?_) fun m hm => ?_
  · rw [hn, Option.some.injEq]
    exact ⟨fun h => ⟨h.symm, rfl⟩, fun h => h.1.symm⟩
  · exact (hok.fresh p ((hok.live p).mpr (.inr rfl))).trans_le hs.next
  · rw [← Option.some.inj (hn.symm.trans hm)]
    exact ⟨href, hhost⟩

/-- A listed neighbour is changed, not its address. -/
lemma NeighsOk.setListed {held : Option ℕ} (hok : NeighsOk h held) (hs : TableStep h h' p)
    (hp : p ∈ h.neighList) (hn : h.neighMem p = some n) (hn' : h'.neighMem p = some n') (href : n'.ref = 1)
    (hhost : n'.host = true) (hip : n'.ip = n.ip) (hport : n'.port = n.port) : NeighsOk h' held := by
  have hsome : ∀ p', (h'.neighMem p').isSome = (h.neighMem p').isSome := fun p' => by
    rcases eq_or_ne p' p with rfl | hne
    · rw [hn, hn']
      rfl
    · rw [hs.neighMem p' hne]
  exact {
    perm := by rw [hs.neighs, hs.neighList]; exact hok.perm
    sorted := by
      rw [hs.neighs]
      refine hok.sorted.congr fun p' _ => ?_
      rcases eq_or_ne p' p with rfl | hne
      · rw [Host.key_eq hn, Host.key_eq hn', hip, hport]
      · rw [Host.key, Host.key, hs.neighMem p' hne]
    active := by rw [hs.neighsActive, hs.neighList]; exact hok.active
    le_max := by rw [hs.neighList]; exact hok.le_max
    live := fun p' => by rw [hsome, hs.neighList]; exact hok.live p'
    away := by rw [hs.neighList]; exact hok.away
    fresh := fun p' hp' => (hok.fresh p' (by rwa [hsome] at hp')).trans_le hs.next
    ref := fun p' m hm => by
      rcases eq_or_ne p' p with rfl | hne
      · rw [← Option.some.inj (hn'.symm.trans hm)]
        exact href
      · exact hok.ref p' m (hs.neighMem p' hne ▸ hm)
    host := fun p' m hm => by
      rw [hs.neighList]
      rcases eq_or_ne p' p with rfl | hne
      · rw [← Option.some.inj (hn'.symm.trans hm)]
        exact ⟨fun _ => hp, fun _ => hhost⟩
      · exact hok.host p' m (hs.neighMem p' hne ▸ hm) }

/-- A neighbour that keeps its attachment. -/
lemma HidsOk.setNeigh {extra : Option ℕ} (hok : HidsOk h extra) (hn : h.neighMem p = some n)
    (hhid : n'.hid = n.hid) (hlinked : n'.linked = n.linked) : HidsOk (h.setNeigh p (some n')) extra :=
  { hok with
    sorted := hok.sorted
    mem := fun q d hd p' => by
      refine (hok.mem q d hd p').trans ?_
      rcases eq_or_ne p' p with rfl | hne
      · rw [Host.setNeigh_self, hn]
        exact ⟨fun ⟨m, hm, hq⟩ => ⟨n', rfl, by rw [hhid, Option.some.inj hm]; exact hq⟩,
          fun ⟨m, hm, hq⟩ => ⟨n, rfl, by rw [← hhid, Option.some.inj hm]; exact hq⟩⟩
      · rw [Host.setNeigh_other hne]
    linked := fun p' m hm => by
      rcases Host.setNeigh_cases hm with ⟨rfl, rfl⟩ | ⟨-, hm⟩
      · rw [hlinked, hhid]
        exact hok.linked p' n hn
      · exact hok.linked p' m hm
    attached := fun p' m hm q hq => by
      rcases Host.setNeigh_cases hm with ⟨rfl, rfl⟩ | ⟨-, hm⟩
      · exact hok.attached p' n hn q (hhid ▸ hq)
      · exact hok.attached p' m hm q hq }

/-- A neighbour without attachment comes or goes. -/
lemma HidsOk.setFree {extra : Option ℕ} {x : Option Neigh} (hok : HidsOk h extra)
    (hn : ∀ n, h.neighMem p = some n → n.hid = none) (hx : ∀ n, x = some n → n.hid = none ∧ n.linked = false) :
    HidsOk (h.setNeigh p x) extra := by
  have hself : (h.setNeigh p x).neighMem p = x := Function.update_self ..
  exact { hok with
    sorted := hok.sorted
    mem := fun q d hd p' => by
      refine (hok.mem q d hd p').trans ?_
      rcases eq_or_ne p' p with rfl | hne
      · rw [hself]
        exact ⟨fun ⟨m, hm, hq⟩ => (nomatch (hn m hm).symm.trans hq),
          fun ⟨m, hm, hq⟩ => (nomatch (hx m hm).1.symm.trans hq)⟩
      · rw [Host.setNeigh_other hne]
    linked := fun p' m hm => by
      rcases eq_or_ne p' p with rfl | hne
      · rw [hself] at hm
        rw [(hx m hm).1, (hx m hm).2]
        rfl
      · rw [Host.setNeigh_other hne] at hm
        exact hok.linked p' m hm
    attached := fun p' m hm q hq => by
      rcases eq_or_ne p' p with rfl | hne
      · rw [hself] at hm
        exact nomatch (hx m hm).1.symm.trans hq
      · rw [Host.setNeigh_other hne] at hm
        exact hok.attached p' m hm q hq }

/-- The neighbour `p` is attached to `q` or detached from it. -/
lemma HidsOk.move {extra extra' : Option ℕ} {l : List ℕ} (hok : HidsOk h extra)
    (hn : h.neighMem p = some n) (hd : h.hidMem q = some d) (hhid : ∀ q' ≠ q, n.hid ≠ some q')
    (hhid' : ∀ q' ≠ q, n'.hid ≠ some q') (hlinked : n'.linked = n'.hid.isSome)
    (href : d.ref = l.length + if extra' = some q then 1 else 0)
    (hother : ∀ q' ≠ q, (extra' = some q' ↔ extra = some q')) (hnodup : l.Nodup)
    (hmem : ∀ p', p' ∈ l ↔ (p' = p ∧ n'.hid = some q) ∨ (p' ≠ p ∧ p' ∈ d.neighList)) :
    HidsOk ((h.setNeigh p (some n')).setHid q (some { d with neighList := l })) extra' := by
  have hcases : ∀ {q' e}, ((h.setNeigh p (some n')).setHid q (some { d with neighList := l })).hidMem q' = some e →
      (q' = q ∧ e = { d with neighList := l }) ∨ (q' ≠ q ∧ h.hidMem q' = some e) :=
    fun he => Host.setHid_cases he
  have hsome : ∀ q', (((h.setNeigh p (some n')).setHid q (some { d with neighList := l })).hidMem q').isSome =
      (h.hidMem q').isSome := fun q' => Host.isSome_setHid hd q'
  have hncases : ∀ {p' m},
      ((h.setNeigh p (some n')).setHid q (some { d with neighList := l })).neighMem p' = some m →
      (p' = p ∧ m = n') ∨ (p' ≠ p ∧ h.neighMem p' = some m) := fun hm => Host.setNeigh_cases hm
  have hnself : ((h.setNeigh p (some n')).setHid q (some { d with neighList := l })).neighMem p = some n' :=
    Host.setNeigh_self
  have hnother : ∀ {p'}, p' ≠ p →
      ((h.setNeigh p (some n')).setHid q (some { d with neighList := l })).neighMem p' = h.neighMem p' :=
    fun hne => Host.setNeigh_other hne
  exact {
    sorted := hok.sorted.congr fun q' _ => Host.hidKey_setHid hd { d with neighList := l } rfl q'
    active := hok.active
    live := fun q' => by rw [hsome]; exact hok.live q'
    fresh := fun q' hq' => hok.fresh q' (by rwa [hsome] at hq')
    host := fun q' e he => by
      rcases hcases he with ⟨rfl, rfl⟩ | ⟨-, he⟩
      · exact hok.host q' d hd
      · exact hok.host q' e he
    ref := fun q' e he => by
      rcases hcases he with ⟨rfl, rfl⟩ | ⟨hne, he⟩
      · exact href
      · rw [hok.ref q' e he, if_congr (hother q' hne) rfl rfl]
    pos := fun q' e he => by
      rcases hcases he with ⟨rfl, rfl⟩ | ⟨-, he⟩
      · exact hok.pos q' d hd
      · exact hok.pos q' e he
    nodup := fun q' e he => by
      rcases hcases he with ⟨rfl, rfl⟩ | ⟨-, he⟩
      · exact hnodup
      · exact hok.nodup q' e he
    mem := fun q' e he p' => by
      rcases hcases he with ⟨rfl, rfl⟩ | ⟨hne', he⟩
      · rw [hmem p']
        rcases eq_or_ne p' p with rfl | hne
        · rw [hnself]
          exact ⟨fun h => ⟨n', rfl, h.elim And.right fun h => absurd rfl h.1⟩,
            fun ⟨m, hm, hq⟩ => .inl ⟨rfl, Option.some.inj hm ▸ hq⟩⟩
        · rw [hnother hne, hok.mem q' d hd p']
          exact ⟨fun h => h.elim (fun h => absurd h.1 hne) And.right, fun h => .inr ⟨hne, h⟩⟩
      · refine (hok.mem q' e he p').trans ?_
        rcases eq_or_ne p' p with rfl | hne
        · rw [hnself, hn]
          exact ⟨fun ⟨m, hm, hq⟩ => absurd (Option.some.inj hm ▸ hq) (hhid q' hne'),
            fun ⟨m, hm, hq⟩ => absurd (Option.some.inj hm ▸ hq) (hhid' q' hne')⟩
        · rw [hnother hne]
    linked := fun p' m hm => by
      rcases hncases hm with ⟨rfl, rfl⟩ | ⟨-, hm⟩
      · exact hlinked
      · exact hok.linked p' m hm
    attached := fun p' m hm q' hq' => by
      rw [hsome]
      rcases hncases hm with ⟨rfl, rfl⟩ | ⟨-, hm⟩
      · have : q' = q := by_contra fun hne => hhid' q' hne hq'
        rw [this, hd]
        rfl
      · exact hok.attached p' m hm q' hq' }

lemma tableStep_setBoth (hd : h.hidMem q = some d) (hid : d'.hostId = d.hostId) :
    TableStep h ((h.setNeigh p (some n)).setHid q (some d')) p :=
  tableStep_setNeigh.trans (hidStep_setHid (h := h.setNeigh p (some n)) hd hid).tableStep

/-- **Attaching**: the reference goes to the neighbour. -/
theorem neighAttachHostId_spec (hok : HidsOk h (some q)) (hn : h.neighMem p = some n) (hhid : n.hid = none)
    (hd : h.hidMem q = some d) : Runs (neighAttachHostId p q) h fun _ h' =>
      HidsOk h' none ∧ TableStep h h' p ∧ h'.neighMem p = some { n with hid := some q, linked := true } ∧
        (h'.hidMem q).map HostId.hostId = some d.hostId ∧ h'.next = h.next := by
  have hlinked := hok.linked p n hn
  rw [hhid] at hlinked
  have href := hok.ref q d hd
  rw [if_pos rfl] at href
  have hp : p ∉ d.neighList := fun hp => by
    obtain ⟨m, hm, hq⟩ := (hok.mem q d hd p).mp hp
    rw [← Option.some.inj (hn.symm.trans hm), hhid] at hq
    cases hq
  refine Runs.step (readNeigh_run hn) ?_
  rw [hhid, hlinked]
  refine Runs.step (readHid_run hd) (Runs.step writeNeigh_run (Runs.intro writeHid_run ⟨?_, ?_, ?_, ?_, rfl⟩))
  · refine hok.move hn hd (fun q' _ => by rw [hhid]; exact (Option.some_ne_none q').symm)
      (fun q' hne h => hne (Option.some.inj h).symm) rfl ?_ (fun q' hne => ?_) ?_ fun p' => ?_
    · rw [if_neg (Option.some_ne_none q).symm, List.length_append, List.length_singleton, href]
    · exact ⟨fun h => (nomatch h), fun h => absurd (Option.some.inj h).symm hne⟩
    · rw [List.nodup_append]
      exact ⟨hok.nodup q d hd, List.nodup_singleton p, fun a ha b hb => by
        rw [List.mem_singleton.mp hb]
        exact fun he => hp (he ▸ ha)⟩
    · rw [List.mem_append, List.mem_singleton]
      constructor
      · rintro (h | rfl)
        · exact .inr ⟨fun he => hp (he ▸ h), h⟩
        · exact .inl ⟨rfl, rfl⟩
      · exact fun h => h.elim (fun h => .inr h.1) fun h => .inl h.2
  · exact tableStep_setBoth hd rfl
  · exact Host.setNeigh_self
  · rw [Host.setHid_self]
    rfl

/-- **Detaching** drops the reference that the neighbour had. -/
theorem neighDetachHid_spec (hok : HidsOk h none) (hn : h.neighMem p = some n) :
    Runs (neighDetachHid rb p) h fun _ h' => HidsOk h' none ∧ TableStep h h' p ∧
      h'.neighMem p = some { n with hid := none, linked := false } := by
  refine Runs.step (readNeigh_run hn) ?_
  cases hhid : n.hid with
  | none =>
    have hlinked := hok.linked p n hn
    rw [hhid] at hlinked
    have hsame : { n with hid := none, linked := false } = n := by
      cases n
      cases hhid
      cases hlinked
      rfl
    refine Runs.pure ⟨hok, (HidStep.refl h).tableStep, ?_⟩
    rw [hsame, hn]
  | some q =>
    obtain ⟨d, hd⟩ := Option.isSome_iff_exists.mp (hok.attached p n hn q hhid)
    have href := hok.ref q d hd
    rw [if_neg (Option.some_ne_none q).symm] at href
    have hp : p ∈ d.neighList := (hok.mem q d hd p).mpr ⟨n, hn, hhid⟩
    have hpos := List.length_pos_of_mem hp
    refine Runs.step (readHid_run hd) (Runs.step writeNeigh_run (Runs.step writeHid_run ?_))
    have hmoved : HidsOk ((h.setNeigh p (some { n with hid := none, linked := false })).setHid q
        (some { d with neighList := d.neighList.erase p })) (some q) := by
      refine hok.move hn hd (fun q' hne => ?_) (fun q' _ h => (nomatch h)) rfl ?_ (fun q' hne => ?_)
        ((hok.nodup q d hd).erase p) fun p' => ?_
      · rw [hhid]
        exact fun h => hne (Option.some.inj h).symm
      · rw [if_pos rfl, List.length_erase_of_mem hp]
        omega
      · exact ⟨fun h => absurd (Option.some.inj h).symm hne, fun h => (nomatch h)⟩
      · rw [(hok.nodup q d hd).mem_erase_iff]
        exact ⟨.inr, fun h => h.elim (fun h => (nomatch h.2)) id⟩
    refine (hidDeref_spec hmoved Host.setHid_self).mono fun _ h' ⟨hok', hs⟩ => ⟨hok', ?_, ?_⟩
    · refine TableStep.trans ?_ hs.tableStep
      exact tableStep_setBoth hd rfl
    · rw [hs.neighMem]
      exact Host.setNeigh_self

/-- **Dropping the neighbour in hand** frees it. -/
theorem neighDeref_held (hnok : NeighsOk h (some p)) (hok : HidsOk h none) :
    Runs (neighDeref rb p) h fun _ h' => NeighsOk h' none ∧ HidsOk h' none ∧ TableStep h h' p := by
  have hp := hnok.away p rfl
  obtain ⟨n, hn⟩ := Option.isSome_iff_exists.mp ((hnok.live p).mpr (.inr rfl))
  have href := hnok.ref p n hn
  have hhost : n.host = false := by
    rw [← Bool.not_eq_true, hnok.host p n hn]
    exact hp
  refine Runs.step (readNeigh_run hn) ?_
  rw [href, if_neg Nat.one_ne_zero]
  refine Runs.step writeNeigh_run ?_
  rw [if_pos (show 1 - 1 = 0 from rfl)]
  have hok₁ : HidsOk (h.setNeigh p (some { n with ref := 1 - 1 })) none := hok.setNeigh hn rfl rfl
  refine (neighDetachHid_spec hok₁ Host.setNeigh_self).bind fun _ h₂ ⟨hok₂, hs₂, hn₂⟩ => ?_
  refine Runs.step (readNeigh_run hn₂) ?_
  rw [hhost]
  have hstep : TableStep h (h₂.setNeigh p none) p := (tableStep_setNeigh.trans hs₂).trans tableStep_setNeigh
  have hgone : (h₂.setNeigh p none).neighMem p = none := Function.update_self ..
  refine Runs.intro (show (modify fun h => h.setNeigh p none : R Unit) h₂ = .ok ((), h₂.setNeigh p none) from rfl)
    ⟨hnok.tableStep hstep hp (fun p' => ?_) (fun p' hne h => hne (Option.some.inj h).symm) ?_ ?_, ?_, hstep⟩
  · rw [hgone]
    exact ⟨fun h => (nomatch h), fun h => (nomatch h.2)⟩
  · rw [hgone]
    exact fun h => (nomatch h)
  · rw [hgone]
    exact fun _ h => (nomatch h)
  · refine hok₂.setFree (fun m hm => ?_) fun m hm => (nomatch hm)
    rw [← Option.some.inj (hn₂.symm.trans hm)]

/-! ### Inserting a neighbour -/

/-- An address that the table has. -/
def Host.Known (h : Host) (ip : UInt32) (port : ℤ) : Prop :=
  ∃ p ∈ h.neighList, h.key p = addrKey ip port

lemma NeighsOk.tree_live {held : Option ℕ} (hok : NeighsOk h held) (hp : p ∈ h.neighs.toList) :
    (h.neighMem p).isSome := (hok.live p).mpr (.inl (hok.perm.mem_iff.mp hp))

/-- The tree has exactly the entries of the list. -/
lemma neighsLookup_of_mem {held : Option ℕ} (hok : NeighsOk h held) (hp : p ∈ h.neighList)
    (hkey : h.key p = addrKey ip port) : neighsLookup ip port h = .ok (some p, h) :=
  run_lift (RbTree.search_of_mem hok.sorted (compares_neighs fun _ => hok.tree_live)
    (hok.perm.mem_iff.mpr hp) hkey)

lemma neighsLookup_of_notKnown {held : Option ℕ} (hok : NeighsOk h held) (hnew : ¬ h.Known ip port) :
    neighsLookup ip port h = .ok (none, h) :=
  run_lift (RbTree.search_of_notMem (compares_neighs fun _ => hok.tree_live) fun p hp hkey =>
    hnew ⟨p, hok.perm.mem_iff.mp hp, hkey⟩)

lemma neighRef_run (hn : h.neighMem p = some n) (hpos : 0 < n.ref) :
    neighRef p h = .ok ((), h.setNeigh p (some { n with ref := n.ref + 1 })) := by
  rw [neighRef, run_bind_ok (readNeigh_run hn), if_neg hpos.ne']
  rfl

/-- Dropping a reference that is not the last one. -/
lemma neighDeref_run (hn : h.neighMem p = some n) (hpos : 1 < n.ref) :
    neighDeref rb p h = .ok ((), h.setNeigh p (some { n with ref := n.ref - 1 })) := by
  rw [neighDeref, run_bind_ok (readNeigh_run hn), if_neg (by omega)]
  show (writeNeigh p _ >>= _) h = _
  rw [run_bind_ok writeNeigh_run, if_neg (by omega)]
  rfl

lemma hostAddNeigh_known (hok : NeighsOk h (some p)) (hn : h.neighMem p = some n)
    (hknown : h.Known n.ip n.port) : hostAddNeigh rb p h = .ok (.error .eexist, h) := by
  obtain ⟨p', hp', hkey⟩ := hknown
  have hne : p' ≠ p := fun he => hok.away p rfl (he ▸ hp')
  obtain ⟨m, hm⟩ := Option.isSome_iff_exists.mp ((hok.live p').mpr (.inl hp'))
  have href := hok.ref p' m hm
  have hinsert : neighsInsert rb p h = .ok (some p', h.setNeigh p' (some { m with ref := m.ref + 1 })) := by
    rw [neighsInsert, run_bind_ok (readNeigh_run hn), run_get, run_bind_ok (neighsLookup_of_mem hok hp' hkey)]
    show (neighRef p' >>= _) h = _
    rw [run_bind_ok (neighRef_run hm (by omega))]
    rfl
  have hderef : neighDeref rb p' (h.setNeigh p' (some { m with ref := m.ref + 1 })) = .ok ((), h) := by
    rw [neighDeref_run Host.setNeigh_self (show 1 < m.ref + 1 by omega), Host.setNeigh_setNeigh]
    exact congrArg (fun s => Except.ok ((), s)) (Host.setNeigh_eq_self hm)
  rw [hostAddNeigh, run_bind_ok hinsert]
  show (if p' = p then _ else _ : R _) _ = _
  rw [if_neg hne, run_bind_ok hderef]
  rfl

lemma hostAddNeigh_full (hok : NeighsOk h (some p)) (hn : h.neighMem p = some n)
    (hnew : ¬ h.Known n.ip n.port) (hfull : h.neighList.length = routeMaxNeighs) :
    hostAddNeigh rb p h = .ok (.error .elimit, h) := by
  have hinsert : neighsInsert rb p h = .ok (none, h) := by
    rw [neighsInsert, run_bind_ok (readNeigh_run hn), run_get, run_bind_ok (neighsLookup_of_notKnown hok hnew)]
    show (if h.neighsActive ≥ routeMaxNeighs then _ else _ : R _) h = _
    rw [if_pos (by rw [hok.active, hfull])]
    rfl
  rw [hostAddNeigh, run_bind_ok hinsert]
  rfl

/-- The host with the neighbour in hand inserted. -/
def Host.withNeigh (h : Host) (t : RbTree ℕ) (p : ℕ) (n : Neigh) : Host :=
  { h.setNeigh p (some { n with host := true }) with
    neighs := t
    neighsActive := h.neighsActive + 1
    neighList := h.neighList ++ [p] }

lemma NeighsOk.withNeigh {t : RbTree ℕ} (hok : NeighsOk h (some p)) (hn : h.neighMem p = some n)
    (hroom : h.neighList.length < routeMaxNeighs) (hperm : t.toList.Perm (p :: h.neighs.toList))
    (hsorted : t.Sorted h.key) : NeighsOk (h.withNeigh t p n) none := by
  have hcases : ∀ {p' m}, (h.withNeigh t p n).neighMem p' = some m →
      (p' = p ∧ m = { n with host := true }) ∨ (p' ≠ p ∧ h.neighMem p' = some m) :=
    fun hm => Host.setNeigh_cases hm
  have hself : (h.withNeigh t p n).neighMem p = some { n with host := true } := Host.setNeigh_self
  have hother : ∀ {p'}, p' ≠ p → (h.withNeigh t p n).neighMem p' = h.neighMem p' :=
    fun hne => Host.setNeigh_other hne
  have hlist : ∀ p', p' ∈ (h.withNeigh t p n).neighList ↔ p' ∈ h.neighList ∨ p' = p := fun p' => by
    show p' ∈ h.neighList ++ [p] ↔ _
    rw [mem_append, mem_singleton]
  exact {
    perm := hperm.trans ((hok.perm.cons p).trans (perm_append_singleton p _).symm)
    sorted := hsorted.congr fun p' _ => by
      rcases eq_or_ne p' p with rfl | hne
      · rw [Host.key_eq hself, Host.key_eq hn]
      · rw [Host.key, Host.key, hother hne]
    active := by
      show h.neighsActive + 1 = ((h.neighList ++ [p]).length : ℤ)
      rw [hok.active, length_append, length_singleton]
      omega
    le_max := by
      show (h.neighList ++ [p]).length ≤ _
      rw [length_append, length_singleton]
      exact hroom
    live := fun p' => by
      rw [hlist, or_iff_left (Option.some_ne_none p').symm]
      rcases eq_or_ne p' p with rfl | hne
      · rw [hself]
        exact ⟨fun _ => .inr rfl, fun _ => rfl⟩
      · rw [hother hne, hok.live p', or_iff_left fun h => hne (Option.some.inj h).symm, or_iff_left hne]
    away := fun p' h => (nomatch h)
    fresh := fun p' hp' => by
      refine hok.fresh p' ?_
      rcases eq_or_ne p' p with rfl | hne
      · rw [hn]
        rfl
      · rwa [hother hne] at hp'
    ref := fun p' m hm => by
      rcases hcases hm with ⟨rfl, rfl⟩ | ⟨-, hm⟩
      · exact hok.ref p' n hn
      · exact hok.ref p' m hm
    host := fun p' m hm => by
      rw [hlist]
      rcases hcases hm with ⟨rfl, rfl⟩ | ⟨hne, hm⟩
      · exact ⟨fun _ => .inr rfl, fun _ => rfl⟩
      · rw [hok.host p' m hm, or_iff_left hne] }

lemma HidsOk.withNeigh {t : RbTree ℕ} (hok : HidsOk h none) (hn : h.neighMem p = some n) :
    HidsOk (h.withNeigh t p n) none := by
  have hset : HidsOk (h.setNeigh p (some { n with host := true })) none := hok.setNeigh hn rfl rfl
  exact { hset with sorted := hset.sorted }

/-- A new address with room for it is inserted. -/
lemma hostAddNeigh_new (hok : NeighsOk h (some p)) (hn : h.neighMem p = some n)
    (hnew : ¬ h.Known n.ip n.port) (hroom : h.neighList.length < routeMaxNeighs) :
    ∃ t, NeighsOk (h.withNeigh t p n) none ∧ hostAddNeigh rb p h = .ok (.ok (), h.withNeigh t p n) := by
  have href := hok.ref p n hn
  have hkey : addrKey n.ip n.port = h.key p := (Host.key_eq hn).symm
  have hcomp : Compares (h.neighCmp n.ip n.port) h.key (addrKey n.ip n.port) h.neighs :=
    compares_neighs fun _ => hok.tree_live
  obtain ⟨t, hlink, hperm, ht⟩ := RbTree.link_spec (x := p) hok.sorted (hkey ▸ hcomp) fun p' hp' he =>
    hnew ⟨p', hok.perm.mem_iff.mp hp', he.trans hkey.symm⟩
  rw [← rb.toList_insertColor p t] at hperm
  refine ⟨rb.insertColor p t, hok.withNeigh hn hroom hperm (rb.sorted_insertColor ht), ?_⟩
  have hinsert : neighsInsert rb p h = .ok (some p,
      { h with neighs := rb.insertColor p t, neighsActive := h.neighsActive + 1 }.setNeigh p
        (some { n with host := true, ref := n.ref + 1 })) := by
    rw [neighsInsert, run_bind_ok (readNeigh_run hn), run_get, run_bind_ok (neighsLookup_of_notKnown hok hnew)]
    show (if h.neighsActive ≥ routeMaxNeighs then _ else _ : R _) h = _
    rw [if_neg (by rw [hok.active]; omega)]
    refine Eq.trans (run_bind_ok (run_lift hlink)) ?_
    show (neighRef p >>= fun _ => pure (some p)) (Host.setNeigh _ p _) = _
    have hpos : 0 < ({ n with host := true } : Neigh).ref := by
      show 0 < n.ref
      omega
    rw [run_bind_ok (neighRef_run Host.setNeigh_self hpos), Host.setNeigh_setNeigh]
    rfl
  have hderef : neighDeref rb p ({ h with
          neighs := rb.insertColor p t
          neighsActive := h.neighsActive + 1
          neighList := h.neighList ++ [p] }.setNeigh p (some { n with host := true, ref := n.ref + 1 })) =
      .ok ((), h.withNeigh (rb.insertColor p t) p n) := by
    rw [neighDeref_run Host.setNeigh_self (show 1 < n.ref + 1 by omega), Host.setNeigh_setNeigh]
    rfl
  rw [hostAddNeigh, run_bind_ok hinsert]
  show (if p = p then _ else _ : R _) _ = _
  rw [if_pos rfl]
  exact Eq.trans (run_bind_ok rfl) (run_bind_ok hderef)

end

end Nkfs
