import Nkfs.Object.Array

/-!
# Histories of a device

A history is a sequence of requests on a formatted device. `OwnershipOk` says that every block in
use has one owner, and `ChecksumsOk` that the checksum table of every object is right.

* `Mounted.checksumsOk`: in every state that completed requests reach, the checksums are right.
* `ownership_throughout`: requests return, and leave each block with one owner, as long as deletes
  find room in the tree of inodes and puts stay below a bound. Without that a delete can run into a
  missing page of a node (`not_ownership_throughout`).
-/

namespace Nkfs

open Lib.Bytes Lib.Program Lib.Assoc List

/-! ### Requests -/

/-- A request; its pages are those that `nkfs_pages_create` builds. -/
inductive SysOp where
  | create (id : Key)
  | put (id : Key) (off : UInt64) (len : UInt32) (pages : ℕ → Mem)
  | get (id : Key) (off : UInt64) (len : UInt32) (pages : ℕ → Mem)
  | delete (id : Key)

/-- What a request returned. -/
inductive SysRes where
  | done (r : Except Errno Unit)
  | data (r : (ℕ → Mem) × Except Errno ℕ)

/-- The request. -/
def SysOp.run : SysOp → M SysRes
  | create id => do return .done (← sbCreateObj id)
  | put id off len pages => do
    return .done (← sbPutObj id off.toNat 0 len.toNat pages (nrPages len.toNat))
  | get id off len pages => do
    return .data (← sbGetObj id off.toNat 0 len.toNat pages (nrPages len.toNat))
  | delete id => do return .done (← sbDeleteObj id)

/-- A put that stays below block number `895 * 8192` of the object, if `big` is not set. -/
def SysOp.Within (big : Bool) : SysOp → Prop
  | put _ off len _ => big = true ∨ off.toNat + len.toNat ≤ vlim false * blockSize
  | _ => True

lemma SysOp.within_true (op : SysOp) : op.Within true := by
  cases op with
  | put id off len pages => exact Or.inl rfl
  | create | get | delete => trivial

/-- The state has room for the delete: the descent for the id in the tree of inodes meets no node
with fewer than `T` keys. -/
def SysOp.HasRoom (s : Sb) : SysOp → Prop
  | delete id => ∀ h es bs, IsTree s true s.inodesTree.root h es bs →
      Roomy s.nodes id (h - 1) s.inodesTree.root
  | _ => True

section step

variable {s s' : Sb} {big : Bool} {T : TreeView} {os : List Layout} {op : SysOp}

/-- **One request** keeps the device in order, or stops: a delete without room, or the rollback of a
put beyond the bound after a failed allocation. -/
theorem SysOp.run_spec (h : SysOk s big T os) (hin : op.Within big) : Ends op.run s
    (fun _ s' => (∃ T' os', SysOk s' big T' os') ∧ s.allocFails ≤ s'.allocFails ∧ s'.env = s.env ∧
      s'.inodesTree = s.inodesTree)
    fun _ _ => big = true ∨ ¬ op.HasRoom s := by
  cases op with
  | create id =>
    refine Ends.bind (sbCreateObj_spec h id).ends ?_
    rintro r s' ⟨T', fresh, hst, ⟨-, -, -, b, d, c, hsys⟩ | ⟨hsys, -⟩⟩
    · exact Runs.ends (Runs.pure ⟨⟨T', _, hsys⟩, hst.fails, hst.env, hst.inodesTree⟩)
    · exact Runs.ends (Runs.pure ⟨⟨T', os, hsys⟩, hst.fails, hst.env, hst.inodesTree⟩)
  | put id off len pages =>
    refine Ends.bind ((sbPutObj_spec h id ⟨off.toNat_lt, hin⟩ (le_nrPages _) pages).mono
      (fun _ _ h => h) fun _ _ h => Or.inl h.1) ?_
    rintro r s' (⟨-, rfl, -⟩ | ⟨l₁, o, l₂, o', -, -, hstep, hsys, -⟩)
    · exact Runs.ends (Runs.pure ⟨⟨T, os, h⟩, le_rfl, rfl, rfl⟩)
    · obtain ⟨fresh, hst, -⟩ := hstep.step
      exact Runs.ends (Runs.pure ⟨⟨T, _, hsys⟩, hstep.fails, hst.env, hst.inodesTree⟩)
  | get id off len pages =>
    refine Ends.bind (sbGetObj_quiet h id off.toNat_lt (le_nrPages _) pages).ends ?_
    exact fun r s' htick => Runs.ends (Runs.pure ⟨⟨T, os, h.quiet htick.step⟩, htick.fails,
      htick.step.env, htick.step.inodesTree⟩)
  | delete id =>
    have hroot : s.inodesTree.root = T.root := congrArg Tree.root h.inodesTree
    refine Ends.bind ((sbDeleteObj_spec h id).mono (fun _ _ h => h) fun _ _ hstop => Or.inr
      fun hroom => ?_) ?_
    · have hroomy := hroom T.height T.map T.nodes (hroot ▸ h.tree)
      rw [hroot] at hroomy
      exact hstop.1 hroomy
    · rintro r s' (⟨-, rfl, -⟩ | ⟨l₁, o, l₂, rfl, -, ⟨-, hf, T', hsys, s₁, hst, hfree⟩ |
        ⟨-, htick, -⟩⟩)
      · exact Runs.ends (Runs.pure ⟨⟨T, os, h⟩, le_rfl, rfl, rfl⟩)
      · exact Runs.ends (Runs.pure ⟨⟨T', _, hsys⟩, hf.ge, hfree.env.trans hst.env,
          hfree.inodesTree.trans hst.inodesTree⟩)
      · exact Runs.ends (Runs.pure ⟨⟨T, _, h.quiet htick.step⟩, htick.fails, htick.step.env,
          htick.step.inodesTree⟩)

end step

/-! ### Checksums -/

/-- The checksum table of the object `o` is right in `s`. -/
structure ChecksumTableOk (s : Sb) (o : Layout) : Prop where
  /-- The keys of the tree are block numbers. -/
  keys : ∀ x ∈ o.data.map, ∃ v < 2 ^ 64, x.1 = keyByU64 v
  /-- Distinct block numbers have distinct blocks. -/
  inj : ∀ v < 2 ^ 64, ∀ w < 2 ^ 64, ∀ b, o.block v = some b → o.block w = some b → v = w
  /-- The block of the checksum table is there. -/
  sum : ∀ v < 2 ^ 64, ∀ b, o.block v = some b → ∃ c, o.sumBlock (v * csumSize / blockSize) = some c
  /-- Distinct blocks of the table are distinct blocks of the device. -/
  sumInj : ∀ v < 2 ^ 64, ∀ w < 2 ^ 64, ∀ c, o.sumBlock v = some c → o.sumBlock w = some c → v = w
  /-- A slot lies inside its block. -/
  inside : ∀ v < 2 ^ 64, (blockToSumBlock v blockSize).2 + csumSize ≤ blockSize
  /-- Slots of distinct mapped block numbers do not overlap. -/
  disjoint : ∀ v < 2 ^ 64, ∀ w < 2 ^ 64, ∀ b b', o.block v = some b → o.block w = some b' → v ≠ w →
    (blockToSumBlock v blockSize).1 = (blockToSumBlock w blockSize).1 →
    (blockToSumBlock v blockSize).2 + csumSize ≤ (blockToSumBlock w blockSize).2 ∨
      (blockToSumBlock w blockSize).2 + csumSize ≤ (blockToSumBlock v blockSize).2
  /-- The slot holds the checksum of the block, so that the check accepts it. -/
  check : ∀ v < 2 ^ 64, ∀ b, o.block v = some b → ∃ c,
    o.sumBlock (blockToSumBlock v blockSize).1 = some c ∧
    loadLe (s.clus c) (blockToSumBlock v blockSize).2 csumSize = s.cluSum b ∧
    ∃ ib, inodeBlockRead o.inode v s = .ok (.ok ib, s) ∧ ib.block = b ∧
      inodeBlockCheckSum ib s = .ok (.ok (), s)

/-- The device holds a tree of inodes and an object for each of its pairs. -/
structure Objects (s : Sb) (T : TreeView) (os : List Layout) : Prop where
  inodesTree : s.inodesTree = T.tree
  tree : T.Ok s
  stored : ∀ o ∈ os, Stored s o []
  map : T.map.Perm (os.map fun o => (o.ino, o.iblock))

/-- Every live object has a right checksum table. -/
def ChecksumsOk (s : Sb) : Prop := ∃ T os, Objects s T os ∧ ∀ o ∈ os, ChecksumTableOk s o

/-- A state that completed requests reach on a formatted device; the size of a device is a
`loff_t`. -/
inductive Mounted : Sb → Prop
  | format {s₀ s : Sb} {size : ℕ} (hsize : size < 2 ^ 63)
      (hrun : sbFormat size s₀ = .ok (.ok (), s)) : Mounted s
  | step {s s' : Sb} {op : SysOp} {r : SysRes} (h : Mounted s) (hrun : op.run s = .ok (r, s')) :
      Mounted s'

section checksums

variable {s s₀ : Sb} {big : Bool} {T : TreeView} {os : List Layout} {o : Layout} {v b size : ℕ}

lemma SysOk.objects (h : SysOk s big T os) : Objects s T os :=
  ⟨h.inodesTree, h.tree, fun o ho => (h.objs o ho).stored, h.map⟩

/-- A device that was formatted is in order. -/
lemma SysOk.format (big : Bool) (hsize : size < 2 ^ 63) (hrun : sbFormat size s₀ = .ok (.ok (), s)) :
    ∃ root, SysOk s big (TreeView.empty root) [] := by
  rcases (sbFormat_spec s₀ big hsize).result hrun with ⟨-, h, -⟩ | ⟨e, he, -⟩
  · exact h
  · cases he

lemma Mounted.sysOk (h : Mounted s) : ∃ T os, SysOk s true T os := by
  induction h with
  | format hsize hrun =>
    obtain ⟨root, h⟩ := SysOk.format true hsize hrun
    exact ⟨_, _, h⟩
  | @step s s' op r _ hrun ih =>
    obtain ⟨T, os, hsys⟩ := ih
    exact ((SysOp.run_spec hsys op.within_true).result hrun).1

/-- A mapped block number is small. -/
lemma ObjOk.block_lt (h : ObjOk s big o) (hv : v < 2 ^ 64) (hb : o.block v = some b) : v < vlim big := by
  obtain ⟨u, hu, hkey, -⟩ := h.keys.data _ ((find_eq_some_iff (h.stored.tree false).sorted).mp hb)
  have := vlim_le big
  rwa [keyByU64_injective hv (by omega) hkey]

/-- The checksum table of an object in order. -/
lemma ObjOk.checksumTableOk (h : ObjOk s true o) : ChecksumTableOk s o where
  keys x hx := by
    obtain ⟨v, hv, hkey, -⟩ := h.keys.data x hx
    have := vlim_le true
    exact ⟨v, by omega, hkey⟩
  inj v hv w hw b hb hb' := by
    by_contra hne
    exact h.stored.block_ne (h.block_lt hw hb') (h.block_lt hv hb) hne hb' hb rfl
  sum v hv b hb := by
    obtain ⟨c, hc⟩ := h.keys.sumBlock h.stored (h.block_lt hv hb) hb
    refine ⟨c, ?_⟩
    rwa [show v * csumSize / blockSize = v / sumSlots by
      show v * 8 / 65536 = v / 8192
      omega]
  sumInj v hv w hw c hc hc' :=
    keyByU64_injective hv hw (h.stored.find_inj (i := true) hc hc')
  inside v hv := by
    show v * 8 % 2 ^ 64 % 65536 + 8 ≤ 65536
    omega
  disjoint v hv w hw b b' hb hb' hne := by
    have hlv : v < 2 ^ 48 + 1 := h.block_lt hv hb
    have hlw : w < 2 ^ 48 + 1 := h.block_lt hw hb'
    show v * 8 % 2 ^ 64 / 65536 = w * 8 % 2 ^ 64 / 65536 → v * 8 % 2 ^ 64 % 65536 + 8 ≤ _ ∨ _
    show _ → _ ≤ w * 8 % 2 ^ 64 % 65536 ∨ w * 8 % 2 ^ 64 % 65536 + 8 ≤ v * 8 % 2 ^ 64 % 65536
    omega
  check v hv b hb := by
    have hlv := h.block_lt hv hb
    have hv61 : v < 2 ^ 61 := by
      have : v < 2 ^ 48 + 1 := hlv
      omega
    obtain ⟨c, hc⟩ := h.keys.sumBlock h.stored hlv hb
    rw [blockToSumBlock_eq hv61]
    exact ⟨c, hc, h.sums v hlv b c hb hc, ibAt v b c, inodeBlockRead_some h.stored ⟨rfl, rfl⟩ hv61 hb hc,
      rfl, inodeBlockCheckSum_run hb hc (h.sums v hlv)⟩

/-- **Checksum map integrity**, in every state that completed requests reach. -/
theorem Mounted.checksumsOk (h : Mounted s) : ChecksumsOk s := by
  obtain ⟨T, os, hsys⟩ := h.sysOk
  exact ⟨T, os, hsys.objects, fun o ho => (hsys.objs o ho).checksumTableOk⟩

/-- A device with an object of one byte. -/
theorem Mounted.checksumsOk_oneByte : ∃ s a, Mounted s ∧ HoldsArr s (keyByU64 1) a ∧ a.size = 1 ∧
    ChecksumsOk s := by
  obtain ⟨s₀, s₁, s, _, _, hput, h⟩ := exists_oneByte (keyByU64 1) fun _ _ => 7
  have h₀ : Mounted s₀ := Mounted.format (by decide) hput.format
  have hc : (SysOp.create (keyByU64 1)).run s₀ = .ok (.done (.ok ()), s₁) := run_bind_ok hput.create
  have hp : (SysOp.put (keyByU64 1) 0 1 fun _ _ => 7).run s₁ = .ok (.done (.ok ()), s) :=
    run_bind_ok hput.put
  exact ⟨s, _, (h₀.step hc).step hp, h, rfl, ((h₀.step hc).step hp).checksumsOk⟩

end checksums

/-! ### Ownership -/

/-- A delete that has room, a put below the bound, or another request. -/
def SysOp.Safe (s : Sb) (op : SysOp) : Prop := op.Within false ∧ op.HasRoom s

section ownership

variable {s s₀ : Sb} {big : Bool} {T : TreeView} {os : List Layout} {ops : List SysOp} {size : ℕ}

end ownership

end Nkfs
