import Mathlib.Logic.Function.Basic
import Nkfs.Errno
import Nkfs.Lib.Interleaving

/-!
# Waiting for the read of a cluster (`core/dio.c`)

Any number of threads call `dio_clu_get` for one index. The first to set `DIO_CLU_READ_START` submits
the bio, stores the result in `cluster->err` and completes `read_comp`; the others load `cluster->err`
and then wait for the completion.

The load stands before the wait. A thread that loads before the result is stored takes the initial 0
for success, and gets a cluster without contents if the read fails (`GetOk.unsettled`). If every load comes
after the store or after a successful read, only clusters that were read are handed out
(`get_after_read`).
-/

namespace Nkfs

open Lib.Interleaving

/-- How far a call of `dio_clu_get` is; a result is `none` for 0.

* `get`: before the test of `DIO_CLU_READ`
* `start`: before the test and set of `DIO_CLU_READ_START`
* `alloc`, `flying`: the bio is to be allocated, is in flight
* `ended`, `store`, `complete`: with the result of the bio, before its check, before the store to
  `cluster->err`, before `complete(&cluster->read_comp)`
* `load`, `wait`: before the load of `cluster->err`, before `wait_for_completion(&cluster->read_comp)`
* `ret`: `dio_clu_wait_read` returned
* `done`: whether a cluster was returned
* `bug`: an `NKFS_BUG_ON` fired -/
inductive GetPhase where
  | get
  | start
  | alloc
  | flying
  | ended (err : Option Errno)
  | store (err : Option Errno)
  | complete (err : Option Errno)
  | load
  | wait (err : Option Errno)
  | ret (err : Option Errno)
  | done (got : Bool)
  | bug
  deriving DecidableEq, Repr

/-- The fields of the cluster that reading uses, whether its pages hold what is on the device, and the
threads. -/
structure ReadState (ι : Type) where
  /-- `DIO_CLU_READ_START` -/
  readStart : Bool
  /-- `DIO_CLU_READ` -/
  read : Bool
  loaded : Bool
  err : Option Errno
  /-- `read_comp.done` -/
  comp : ℕ
  phase : ι → GetPhase

section

variable {ι : Type} [DecidableEq ι]

/-- A cluster as `dio_clu_alloc` makes it, and threads that start. -/
def ReadState.init (ι : Type) : ReadState ι where
  readStart := false
  read := false
  loaded := false
  err := none
  comp := 0
  phase := fun _ => .get

/-- Thread `i` goes on. -/
def ReadState.to (st : ReadState ι) (i : ι) (p : GetPhase) : ReadState ι :=
  { st with phase := Function.update st.phase i p }

/-- A step of thread `i`.
Source: `core/dio.c` `dio_clu_get`, `dio_clu_wait_read`, `__dio_io_end_bio` -/
inductive GetStep (i : ι) (st : ReadState ι) : ReadState ι → Prop
  | isRead (h : st.phase i = .get) (hread : st.read = true) : GetStep i st (st.to i (.done true))
  | notRead (h : st.phase i = .get) (hread : st.read = false) : GetStep i st (st.to i .start)
  | first (h : st.phase i = .start) (hstart : st.readStart = false) :
      GetStep i st { st.to i .alloc with readStart := true }
  | second (h : st.phase i = .start) (hstart : st.readStart = true) : GetStep i st (st.to i .load)
  | noMem (h : st.phase i = .alloc) : GetStep i st (st.to i (.store (some .enomem)))
  | submit (h : st.phase i = .alloc) : GetStep i st (st.to i .flying)
  | endOk (h : st.phase i = .flying) (hread : st.read = false) :
      GetStep i st { st.to i (.ended none) with read := true, loaded := true }
  | endBug (h : st.phase i = .flying) (hread : st.read = true) : GetStep i st (st.to i .bug)
  | endErr (h : st.phase i = .flying) (e : Errno) : GetStep i st (st.to i (.ended (some e)))
  | check (err : Option Errno) (h : st.phase i = .ended err) (hread : err = none → st.read = true) :
      GetStep i st (st.to i (.store err))
  | checkBug (h : st.phase i = .ended none) (hread : st.read = false) : GetStep i st (st.to i .bug)
  | store (err : Option Errno) (h : st.phase i = .store err) :
      GetStep i st { st.to i (.complete err) with err := err }
  | complete (err : Option Errno) (h : st.phase i = .complete err) :
      GetStep i st { st.to i (.ret err) with comp := st.comp + 1 }
  | load (h : st.phase i = .load) : GetStep i st (st.to i (.wait st.err))
  | wait (err : Option Errno) (h : st.phase i = .wait err) (hcomp : 0 < st.comp) :
      GetStep i st { st.to i (.ret err) with comp := st.comp - 1 }
  | got (h : st.phase i = .ret none) : GetStep i st (st.to i (.done true))
  | put (e : Errno) (h : st.phase i = .ret (some e)) : GetStep i st (st.to i (.done false))

/-- Between winning `DIO_CLU_READ_START` and the store to `cluster->err`. -/
def GetPhase.reading : GetPhase → Bool
  | .alloc | .flying | .ended _ | .store _ => true
  | _ => false

/-- The read succeeded, or its result is stored. -/
def Settled (st : ReadState ι) : Prop := st.read = true ∨ ∀ j, (st.phase j).reading = false

/-- `cluster->err` is loaded only when the result of the read is settled. -/
def LoadsSettled (st : ReadState ι) (i : ι) : Prop := st.phase i = .load → Settled st

/-! ### Runs with settled loads -/

/-- The thread takes the read for successful. -/
def GetPhase.claims : GetPhase → Bool
  | .ended none | .store none | .complete none | .wait none | .ret none | .done true => true
  | _ => false

/-- What holds when every load is settled: one thread reads, it has not stored its result yet, and a
thread takes the read for successful only if it is. -/
structure GetOk (st : ReadState ι) : Prop where
  loaded : st.read = true → st.loaded = true
  one : ∀ i j, (st.phase i).reading = true → (st.phase j).reading = true → i = j
  started : ∀ i, (st.phase i).reading = true ∨ st.phase i = .load → st.readStart = true
  fresh : st.readStart = false ∨ (∃ i, (st.phase i).reading = true) → st.err = none
  stored : st.readStart = true → (∀ i, (st.phase i).reading = false) → st.err = none → st.read = true
  claims : ∀ i, (st.phase i).claims = true → st.read = true

variable {st st' : ReadState ι} {i j : ι} {p : GetPhase}

omit [DecidableEq ι] in
lemma getOk_init : GetOk (ReadState.init ι) := by
  constructor <;> simp [ReadState.init, GetPhase.reading, GetPhase.claims]

@[simp] lemma ReadState.to_self : (st.to i p).phase i = p := Function.update_self ..

lemma ReadState.to_of_ne (h : j ≠ i) : (st.to i p).phase j = st.phase j := Function.update_of_ne h ..

/-- What the new phase and the phases of the other threads satisfy, every thread satisfies. -/
lemma ReadState.forall_to (P : ι → GetPhase → Prop) (hi : P i p) (h : ∀ j, j ≠ i → P j (st.phase j)) (j : ι) :
    P j ((st.to i p).phase j) :=
  (Function.forall_update_iff st.phase P).mpr ⟨hi, h⟩ j

lemma GetOk.claims_to (h : GetOk st) (hclaims : p.claims = true → st.read = true) (j : ι) :
    ((st.to i p).phase j).claims = true → st.read = true := by
  revert j
  exact ReadState.forall_to (fun _ q => q.claims = true → st.read = true) hclaims fun j _ => h.claims j

/-- A thread goes on without change to the cluster. -/
lemma GetOk.to (h : GetOk st) (hreading : p.reading = true → (st.phase i).reading = true)
    (hstart : p = .load → st.readStart = true) (hclaims : p.claims = true → st.read = true)
    (hleave : (st.phase i).reading = true → p.reading = true ∨ st.read = true) : GetOk (st.to i p) := by
  have hback : ∀ j, ((st.to i p).phase j).reading = true → (st.phase j).reading = true :=
    ReadState.forall_to (fun j q => q.reading = true → (st.phase j).reading = true) hreading fun _ _ hj => hj
  have hload : ∀ j, (st.to i p).phase j = .load → st.readStart = true :=
    ReadState.forall_to (fun _ q => q = .load → st.readStart = true) hstart fun j _ hj => h.started j (.inr hj)
  refine ⟨h.loaded, fun a b ha hb => h.one a b (hback a ha) (hback b hb), fun j hj => ?_, fun hf => ?_,
    fun hs hnone herr => ?_, h.claims_to hclaims⟩
  · exact hj.elim (fun hj => h.started j (.inl (hback j hj))) (hload j)
  · exact h.fresh (hf.imp_right fun ⟨j, hj⟩ => ⟨j, hback j hj⟩)
  · have hp : p.reading = false := by simpa using hnone i
    by_cases hi : (st.phase i).reading = true
    · exact (hleave hi).resolve_left (by simp [hp])
    · refine h.stored hs (fun j => ?_) herr
      by_cases hji : j = i
      · simpa [hji] using hi
      · rw [← hnone j, ReadState.to_of_ne hji]

omit [DecidableEq ι] in
/-- The completion is not part of it. -/
lemma GetOk.withComp (h : GetOk st) (n : ℕ) : GetOk { st with comp := n } :=
  ⟨h.loaded, h.one, h.started, h.fresh, h.stored, h.claims⟩

omit [DecidableEq ι] in
lemma GetOk.not_reading (h : GetOk st) (hstart : st.readStart = false) (j : ι) :
    (st.phase j).reading = false := by
  by_contra hj
  have := h.started j (.inl (by simpa using hj))
  simp [hstart] at this

omit [DecidableEq ι] in
/-- While one thread reads, no other one does. -/
lemma GetOk.others (h : GetOk st) (hi : (st.phase i).reading = true) (hj : j ≠ i) :
    (st.phase j).reading = false := by
  by_contra hr
  exact hj (h.one j i (by simpa using hr) hi)

/-- **A step** whose load is settled keeps the invariant. -/
theorem GetOk.step (h : GetOk st) (hload : LoadsSettled st i) (hstep : GetStep i st st') : GetOk st' := by
  cases hstep with
  | isRead hp hread => exact h.to (by simp [GetPhase.reading]) (by simp) (fun _ => hread) fun _ => .inr hread
  | notRead hp hread =>
    exact h.to (by simp [GetPhase.reading]) (by simp) (by simp [GetPhase.claims]) (by simp [hp, GetPhase.reading])
  | first hp hstart =>
    have hone : ∀ j, ((st.to i .alloc).phase j).reading = true → j = i :=
      ReadState.forall_to (fun j q => q.reading = true → j = i) (fun _ => rfl) fun j _ hj => by
        simp [h.not_reading hstart j] at hj
    exact {
      loaded := h.loaded
      one := fun a b ha hb => (hone a ha).trans (hone b hb).symm
      started := fun _ _ => rfl
      fresh := fun _ => h.fresh (.inl hstart)
      stored := fun _ hall => by simpa [GetPhase.reading] using hall i
      claims := h.claims_to (by simp [GetPhase.claims]) }
  | second hp hstart =>
    exact h.to (by simp [GetPhase.reading]) (fun _ => hstart) (by simp [GetPhase.claims])
      (by simp [hp, GetPhase.reading])
  | noMem hp => exact h.to (fun _ => by rw [hp]; rfl) (by simp) (by simp [GetPhase.claims]) fun _ => .inl rfl
  | submit hp => exact h.to (fun _ => by rw [hp]; rfl) (by simp) (by simp [GetPhase.claims]) fun _ => .inl rfl
  | endOk hp hread =>
    -- as after a failed read, but for the flag
    have hto : GetOk (st.to i .alloc) := h.to (fun _ => by rw [hp]; rfl) (by simp) (by simp [GetPhase.claims])
      fun _ => .inl rfl
    have hsame : ∀ j, ((st.to i (.ended none)).phase j).reading = true → ((st.to i .alloc).phase j).reading = true :=
      ReadState.forall_to (fun j q => q.reading = true → ((st.to i .alloc).phase j).reading = true)
        (by simp [GetPhase.reading]) fun j hj hr => by rwa [ReadState.to_of_ne hj]
    exact {
      loaded := fun _ => rfl
      one := fun a b ha hb => hto.one a b (hsame a ha) (hsame b hb)
      started := fun _ _ => h.started i (.inl (by rw [hp]; rfl))
      fresh := fun _ => h.fresh (.inr ⟨i, by rw [hp]; rfl⟩)
      stored := fun _ _ _ => rfl
      claims := fun _ _ => rfl }
  | endBug hp hread => exact h.to (by simp [GetPhase.reading]) (by simp) (fun _ => hread) fun _ => .inr hread
  | endErr hp e => exact h.to (fun _ => by rw [hp]; rfl) (by simp) (by simp [GetPhase.claims]) fun _ => .inl rfl
  | check err hp hread =>
    refine h.to (fun _ => by rw [hp]; rfl) (by simp) (fun hc => ?_) fun _ => .inl rfl
    cases err with
    | none => exact hread rfl
    | some e => cases hc
  | checkBug hp hread => exact absurd (h.claims i (by rw [hp]; rfl)) (by simp [hread])
  | store err hp =>
    have hnone : ∀ j, ((st.to i (.complete err)).phase j).reading = false :=
      ReadState.forall_to (fun _ q => q.reading = false) rfl fun j hj => h.others (by rw [hp]; rfl) hj
    have hclaims : (GetPhase.complete err).claims = true → st.read = true := fun hc => by
      cases err with
      | none => exact h.claims i (by rw [hp]; rfl)
      | some e => cases hc
    have hstart : st.readStart = true := h.started i (.inl (by rw [hp]; rfl))
    exact {
      loaded := h.loaded
      one := fun a b ha => by simp [hnone a] at ha
      started := fun _ _ => hstart
      fresh := fun hf => by
        rcases hf with hf | ⟨j, hj⟩
        · exact absurd (hstart.symm.trans hf) (by decide)
        · simp [hnone j] at hj
      stored := fun _ _ herr => hclaims (by rw [show err = none from herr]; rfl)
      claims := h.claims_to hclaims }
  | complete err hp =>
    refine (h.to (by simp [GetPhase.reading]) (by simp) (fun hc => ?_) (by simp [hp, GetPhase.reading])).withComp _
    cases err with
    | none => exact h.claims i (by rw [hp]; rfl)
    | some e => cases hc
  | load hp =>
    have hstart : st.readStart = true := h.started i (.inr hp)
    refine h.to (by simp [GetPhase.reading]) (by simp) (fun hc => ?_) (by simp [hp, GetPhase.reading])
    rcases hload hp with hread | hnone
    · exact hread
    · cases herr : st.err with
      | none => exact h.stored hstart hnone herr
      | some e =>
        rw [herr] at hc
        cases hc
  | wait err hp hcomp =>
    refine (h.to (by simp [GetPhase.reading]) (by simp) (fun hc => ?_) (by simp [hp, GetPhase.reading])).withComp _
    cases err with
    | none => exact h.claims i (by rw [hp]; rfl)
    | some e => cases hc
  | got hp =>
    exact h.to (by simp [GetPhase.reading]) (by simp) (fun _ => h.claims i (by rw [hp]; rfl))
      (by simp [hp, GetPhase.reading])
  | put e hp =>
    exact h.to (by simp [GetPhase.reading]) (by simp) (by simp [GetPhase.claims]) (by simp [hp, GetPhase.reading])

/-! ### Loads before the store -/

/-- From a read with an error to the completion, the other threads wait. -/
lemma completes_of_store {err : Option Errno} (hj : st.phase j = .store err) :
    ∃ st', Reaches GetStep (fun _ _ => True) st st' ∧ st'.read = st.read ∧ 0 < st'.comp ∧
      ∀ i, i ≠ j → st'.phase i = st.phase i := by
  have hstore := GetStep.store err hj
  have hcomplete : GetStep j { st.to j (.complete err) with err := err } _ := .complete err ReadState.to_self
  refine ⟨_, (Reaches.refl.step trivial hstore).step trivial hcomplete, rfl, Nat.succ_pos _, fun i hi => ?_⟩
  exact (Function.update_of_ne hi ..).trans (ReadState.to_of_ne hi)

/-- A read that has not succeeded can fail. -/
lemma can_fail (hclaims : (st.phase j).claims = true → st.read = true) (hread : st.read = false)
    (hj : (st.phase j).reading = true) :
    ∃ st', Reaches GetStep (fun _ _ => True) st st' ∧ st'.read = false ∧ 0 < st'.comp ∧
      ∀ i, i ≠ j → st'.phase i = st.phase i := by
  -- one step, then the rest by the lemma above
  have hthen : ∀ {st₁ : ReadState ι} {err : Option Errno}, Reaches GetStep (fun _ _ => True) st st₁ →
      st₁.phase j = .store err → st₁.read = st.read → (∀ i, i ≠ j → st₁.phase i = st.phase i) →
      ∃ st', Reaches GetStep (fun _ _ => True) st st' ∧ st'.read = false ∧ 0 < st'.comp ∧
        ∀ i, i ≠ j → st'.phase i = st.phase i := by
    intro st₁ err hreach hstore hsame hothers
    obtain ⟨st', hreach', hread', hcomp, hothers'⟩ := completes_of_store hstore
    exact ⟨st', hreach.trans hreach', hread'.trans (hsame.trans hread), hcomp,
      fun i hi => (hothers' i hi).trans (hothers i hi)⟩
  cases hp : st.phase j with
  | alloc => exact hthen (Reaches.refl.step trivial (.noMem hp)) ReadState.to_self rfl fun _ => ReadState.to_of_ne
  | flying =>
    refine hthen ((Reaches.refl.step trivial (.endErr hp .eio)).step trivial
      (.check (some .eio) ReadState.to_self (fun he => nomatch he))) ReadState.to_self rfl fun i hi => ?_
    exact (ReadState.to_of_ne hi).trans (ReadState.to_of_ne hi)
  | ended err =>
    have hsome : err = none → st.read = true := fun he => hclaims (by rw [hp, he]; rfl)
    exact hthen (Reaches.refl.step trivial (.check err hp hsome)) ReadState.to_self rfl fun _ => ReadState.to_of_ne
  | store err => exact hthen .refl hp rfl fun _ _ => rfl
  | get => simp [hp, GetPhase.reading] at hj
  | start => simp [hp, GetPhase.reading] at hj
  | complete => simp [hp, GetPhase.reading] at hj
  | load => simp [hp, GetPhase.reading] at hj
  | wait => simp [hp, GetPhase.reading] at hj
  | ret => simp [hp, GetPhase.reading] at hj
  | done => simp [hp, GetPhase.reading] at hj
  | bug => simp [hp, GetPhase.reading] at hj

/-- A thread that loads while another one still reads gets a cluster that is not read, if the read then
fails. -/
lemma GetOk.unsettled (h : GetOk st) (hi : st.phase i = .load) (hset : ¬ Settled st) :
    ∃ st', Reaches GetStep (fun _ _ => True) st st' ∧ st'.phase i = .done true ∧ st'.read = false := by
  rw [Settled, not_or, not_forall] at hset
  obtain ⟨hread, j, hj⟩ := hset
  rw [Bool.not_eq_true] at hread
  rw [Bool.not_eq_false] at hj
  have hij : i ≠ j := fun he => by
    rw [← he, hi] at hj
    cases hj
  have herr : st.err = none := h.fresh (.inr ⟨j, hj⟩)
  -- the load gives 0, then the read fails, and the wait is over
  have hload := GetStep.load hi
  rw [herr] at hload
  have hphase : (st.to i (.wait none)).phase j = st.phase j := ReadState.to_of_ne hij.symm
  have hclaims : ((st.to i (.wait none)).phase j).claims = true → st.read = true := by
    rw [hphase]
    exact h.claims j
  obtain ⟨st₂, hreach, hread₂, hcomp, hothers⟩ := can_fail hclaims hread (by rw [hphase]; exact hj)
  have hwait := GetStep.wait none ((hothers i hij).trans ReadState.to_self) hcomp
  have hgot : GetStep i { st₂.to i (.ret none) with comp := st₂.comp - 1 } _ := .got ReadState.to_self
  exact ⟨_, (((Reaches.refl.step trivial hload).trans hreach).step trivial hwait).step trivial hgot,
    ReadState.to_self, hread₂⟩

/-- **A cluster is handed out after its read.** In every run in which `cluster->err` is loaded only when
the result of the read is settled, a call that returned a cluster returned one with `DIO_CLU_READ` set
and the contents of the device. From a load that is not settled a run goes on to a call that returns a
cluster with the flag clear. -/
theorem get_after_read (ι : Type) [DecidableEq ι] :
    ∀ st : ReadState ι, Reaches GetStep LoadsSettled (ReadState.init ι) st →
      (∀ i, st.phase i = .done true → st.read = true ∧ st.loaded = true) ∧
      ∀ i, st.phase i = .load → ¬ Settled st →
        ∃ st', Reaches GetStep (fun _ _ => True) st st' ∧ st'.phase i = .done true ∧ st'.read = false := by
  intro st hreach
  have hok : GetOk st := hreach.invariant (fun _ _ _ hok hC hstep => hok.step hC hstep) getOk_init
  refine ⟨fun i hi => ?_, fun i hi hset => hok.unsettled hi hset⟩
  have hread := hok.claims i (by rw [hi]; rfl)
  exact ⟨hread, hok.loaded hread⟩

end

/-- A thread that is not about to load meets the condition. -/
lemma loadsSettled_of_ne {ι : Type} {st : ReadState ι} {i : ι} (h : st.phase i ≠ .load) : LoadsSettled st i :=
  fun hi => absurd hi h

/-- The first of two threads has won `DIO_CLU_READ_START`. -/
def firstStarted : ReadState Bool := { ((ReadState.init Bool).to true .start).to true .alloc with readStart := true }

/-- Then the second one has lost it. -/
def bothStarted : ReadState Bool := (firstStarted.to false .start).to false .load

lemma reaches_bothStarted : Reaches GetStep LoadsSettled (ReadState.init Bool) bothStarted := by
  have h₁ : Reaches GetStep LoadsSettled (ReadState.init Bool) ((ReadState.init Bool).to true .start) :=
    Reaches.refl.step (loadsSettled_of_ne (by decide)) (.notRead rfl rfl)
  have h₂ : Reaches GetStep LoadsSettled (ReadState.init Bool) firstStarted :=
    h₁.step (loadsSettled_of_ne (by decide)) (.first rfl rfl)
  have h₃ : Reaches GetStep LoadsSettled (ReadState.init Bool) (firstStarted.to false .start) :=
    h₂.step (loadsSettled_of_ne (by decide)) (.notRead rfl rfl)
  exact h₃.step (loadsSettled_of_ne (by decide)) (.second rfl rfl)

/-- The second of two threads returns the cluster that the first one reads; the load of a second thread
before the store is not settled. -/
theorem get_after_read_two :
    (∃ st : ReadState Bool, Reaches GetStep LoadsSettled (ReadState.init Bool) st ∧ st.phase false = .done true ∧
      st.read = true ∧ st.loaded = true) ∧
    ∃ st : ReadState Bool, Reaches GetStep (fun _ _ => True) bothStarted st ∧ st.phase false = .done true ∧
      st.read = false := by
  constructor
  · have h₁ := reaches_bothStarted.step (loadsSettled_of_ne (by decide)) (.submit (i := true) rfl)
    have h₂ := h₁.step (loadsSettled_of_ne (by decide)) (.endOk (i := true) rfl rfl)
    have h₃ := h₂.step (loadsSettled_of_ne (by decide)) (.check none (i := true) rfl fun _ => rfl)
    have h₄ := h₃.step (loadsSettled_of_ne (by decide)) (.store none (i := true) rfl)
    have h₅ := h₄.step (loadsSettled_of_ne (by decide)) (.complete none (i := true) rfl)
    have h₆ := h₅.step (fun _ => .inl rfl) (.load (i := false) rfl)
    have h₇ := h₆.step (loadsSettled_of_ne (by decide)) (.wait none (i := false) rfl (by decide))
    have h₈ := h₇.step (loadsSettled_of_ne (by decide)) (.got (i := false) rfl)
    exact ⟨_, h₈, rfl, (get_after_read Bool _ h₈).1 false rfl⟩
  · exact (get_after_read Bool bothStarted reaches_bothStarted).2 false rfl (by
      rintro (hread | hnone)
      · cases hread
      · exact absurd (hnone true) (by decide))

/-- **A cluster without contents.** Not every run hands out only clusters that were read. -/
theorem not_get_after_read : ¬ ∀ (ι : Type) [DecidableEq ι] (st : ReadState ι),
    Reaches GetStep (fun _ _ => True) (ReadState.init ι) st → ∀ i, st.phase i = .done true → st.read = true := by
  intro hall
  have hok : GetOk bothStarted :=
    reaches_bothStarted.invariant (fun _ _ _ hok hC hstep => hok.step hC hstep) getOk_init
  have hset : ¬ Settled bothStarted := by
    rintro (hread | hnone)
    · cases hread
    · exact absurd (hnone true) (by decide)
  obtain ⟨st, hreach, hdone, hread⟩ := hok.unsettled (i := false) rfl hset
  have := hall Bool st ((reaches_bothStarted.mono fun _ _ _ => trivial).trans hreach) false hdone
  rw [hread] at this
  cases this

end Nkfs
