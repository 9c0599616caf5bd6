import Nkfs.Btree.Check
import Nkfs.Object.Isolation

/-!
# The count of used blocks across a remount

The bits of the allocation bitmap are written through, one by one. The counter `used_blocks` lives in
memory; `nkfs_sb_format` and `nkfs_sb_stop` write it to the header, and nothing else does.

On a device in order the counter in memory is right (`SysOk.used_eq`), so what a load finds in the
header is the number of bits that were set when the header was last written. It is right exactly if the
device was stopped, or has as many bits set as right after the format (`used_survives_iff`).
-/

namespace Nkfs

open Lib.Program List

/-! ### The header -/

/-- Source: `include/nkfs_image.h` `NKFS_IMAGE_MAGIC` -/
def imageMagic : ℕ := 0x3EFFBDAE

/-- Source: `include/nkfs_image.h` `NKFS_IMAGE_SIG` -/
def imageSig : ℕ := 0xBEDABEDA

/-- Source: `include/nkfs_image.h` `NKFS_IMAGE_VER_1` -/
def imageVer1 : ℕ := 1

/-- Source: `include/nkfs_image.h` `NKFS_IMAGE_BM_BLOCK` -/
def imageBmBlock : ℕ := 1

/-- The fields of `struct nkfs_image_header` before its checksum. -/
structure HeaderFields where
  magic : ℕ
  version : ℕ
  id : Key
  size : ℕ
  bmBlock : ℕ
  bmBlocks : ℕ
  inodesTreeBlock : ℕ
  usedBlocks : ℕ
  bsize : ℕ

/-- Source: `include/nkfs_image.h` `struct nkfs_image_header` -/
structure ImageHeader extends HeaderFields where
  sum : UInt64
  sig : ℕ

/-- A superblock in memory on its device, the header in block 0, and the function that
`nkfs_image_header_sum` computes. -/
structure Device where
  sb : Sb
  id : Key
  header : ImageHeader
  headerSum : HeaderFields → UInt64

/-- Programs on a device. -/
abbrev DevM := Prog Device Fault

/-- A program on the superblock. -/
def onDevice {α : Type} (x : M α) : DevM α := zoom Device.sb (fun sb d => { d with sb := sb }) x

/-- The value that `cpu_to_be64` and `be64_to_cpu` carry over: a `u64`. -/
def u64OfInt (x : ℤ) : ℕ := (x % 2 ^ 64).toNat

/-- A `u64` stored in an `atomic64_t`. -/
def intOfU64 (x : ℕ) : ℤ := if x < 2 ^ 63 then x else x - 2 ^ 64

lemma intOfU64_u64OfInt {x : ℤ} (h0 : 0 ≤ x) (hlt : x < 2 ^ 63) : intOfU64 (u64OfInt x) = x := by
  have hmod : x % 2 ^ 64 = x := Int.emod_eq_of_lt h0 (by omega)
  have hnat : u64OfInt x = x.toNat := by rw [u64OfInt, hmod]
  rw [intOfU64, hnat, if_pos (by omega)]
  omega

/-- Source: `core/super.c` `nkfs_sb_fill_header` -/
def fillHeader (d : Device) : ImageHeader :=
  let fields : HeaderFields :=
    { magic := imageMagic
      version := imageVer1
      id := d.id
      size := d.sb.env.nrBlocks * blockSize
      bmBlock := imageBmBlock
      bmBlocks := d.sb.env.bmBlocks
      inodesTreeBlock := d.sb.inodesTree.root
      usedBlocks := u64OfInt d.sb.usedBlocks
      bsize := blockSize }
  { fields with sum := d.headerSum fields, sig := imageSig }

/-- Source: `core/super.c` `nkfs_sb_parse_header` -/
def parseHeader (headerSum : HeaderFields → UInt64) (header : ImageHeader) : Except Errno HeaderFields :=
  if header.sig ≠ imageSig then .error .einval
  else if header.sum ≠ headerSum header.toHeaderFields then .error .einval
  else .ok header.toHeaderFields

/-- The sum in the last check is one of `u64`. Source: `core/super.c` `nkfs_sb_check` -/
def sbCheck (f : HeaderFields) : Except Errno Unit :=
  if f.magic ≠ imageMagic then .error .einval
  else if f.version ≠ imageVer1 then .error .einval
  else if f.size = 0 ∨ f.bsize = 0 ∨ f.size ≤ f.bsize ∨ f.size % f.bsize ≠ 0 then .error .einval
  else if f.bmBlock ≠ imageBmBlock then .error .einval
  else if f.size ≤ (f.bmBlocks + imageBmBlock) % 2 ^ 64 then .error .einval
  else .ok ()

/-! ### Format, stop and load -/

/-- The id that `nkfs_obj_id_gen` drew is `id`. Source: `core/super.c` `nkfs_sb_format` -/
def devFormat (id : Key) (size : ℕ) : DevM (Except Errno Unit) := do
  match ← onDevice (sbFormat size) with
  | .error e => return .error e
  | .ok () =>
    modify fun d => { d with id := id }
    modify fun d => { d with header := fillHeader d }
    return .ok ()

/-- Source: `core/super.c` `nkfs_sb_stop` -/
def sbStop : DevM Unit := do
  modify fun d =>
    { d with sb := { d.sb with stopping := true, inodesTree := { d.sb.inodesTree with releasing := true } } }
  modify fun d => { d with header := fillHeader d }

/-- `nkfs_sb_create` from a header, without its allocation: the superblock as parsed. -/
def sbParse (d : Device) : Except Errno (HeaderFields × Sb) := do
  let f ← parseHeader d.headerSum d.header
  sbCheck f
  return (f, { d.sb with
    env := { d.sb.env with nrBlocks := f.size / f.bsize, bmBlocks := f.bmBlocks }
    usedBlocks := intOfU64 f.usedBlocks
    stopping := false })

/-- On a device of `devSize` bytes; `mem` says whether there is memory for the superblock.
Source: `core/super.c` `nkfs_sb_load` -/
def sbLoad (devSize : ℕ) (mem : Bool) : DevM (Except Errno Unit) := do
  if !mem then return .error .enomem
  else
    let d ← get
    match sbParse d with
    | .error e => return .error e
    | .ok (f, sb) =>
      if f.size > devSize then return .error .einval
      else if f.inodesTreeBlock ≥ sb.env.nrBlocks then return .error .einval
      else
        set { d with sb := sb, id := f.id }
        match ← onDevice (btreeCreate f.inodesTreeBlock) with
        | none => return .error .einval
        | some tree =>
          modify fun d => { d with sb := { d.sb with inodesTree := tree } }
          return .ok ()

/-- The comparison is one of `u64`. Source: `core/super.c` `nkfs_sb_free_blocks` -/
def sbFreeBlocks (s : Sb) : Except Fault ℕ :=
  if s.env.nrBlocks < u64OfInt s.usedBlocks then .error .bug
  else .ok (s.env.nrBlocks - u64OfInt s.usedBlocks)

/-! ### The counter in memory -/

/-- The bitmap covers the device, and the device is larger than the superblock and the bitmap. -/
structure Sb.Covered (s : Sb) : Prop where
  room : 1 + s.env.bmBlocks < s.env.nrBlocks
  covers : s.env.nrBlocks ≤ 8 * blockSize * s.env.bmBlocks

section counter

variable {s s' : Sb} {big : Bool} {T : TreeView} {os : List Layout} {b : ℕ}

lemma SysOk.lt_nrBlocks (h : SysOk s big T os) (hc : s.Covered) (hb : b ∈ sysBlocks s T os) :
    b < s.env.nrBlocks := by
  rcases mem_append.mp hb with hb | hb
  · exact (mem_range.mp hb).trans hc.room
  · rcases mem_append.mp hb with hb | hb
    · exact (h.tree.sub.owned b (h.tree.blocks_eq ▸ hb)).lt
    · obtain ⟨o, ho, hb⟩ := mem_flatMap.mp hb
      exact ((h.objs o ho).stored.owned_block hb).lt

/-- It is at most the number of blocks. -/
lemma SysOk.used_le (h : SysOk s big T os) (hc : s.Covered) : (sysBlocks s T os).length ≤ s.env.nrBlocks := by
  rw [← toFinset_card_of_nodup h.nodup, ← Finset.card_range s.env.nrBlocks]
  refine Finset.card_le_card fun b hb => ?_
  rw [Finset.mem_range]
  exact h.lt_nrBlocks hc (mem_toFinset.mp hb)

lemma SysOk.used_bounds (h : SysOk s big T os) (hc : s.Covered) :
    0 ≤ s.usedBlocks ∧ s.usedBlocks ≤ s.env.nrBlocks ∧ s.usedBlocks < 2 ^ 63 := by
  have hle := h.used_le hc
  have hdev := h.dev
  have hsize : s.env.nrBlocks ≤ s.env.nrBlocks * blockSize := Nat.le_mul_of_pos_right _ (by decide)
  rw [h.used]
  omega

lemma Sb.Covered.of_env (hc : s.Covered) (henv : s'.env = s.env) : s'.Covered :=
  ⟨by rw [henv]; exact hc.room, by rw [henv]; exact hc.covers⟩

/-- Completed requests keep a device in order. -/
lemma SysOk.runAll {ops : List SysOp} {rs : List SysRes} (h : SysOk s true T os)
    (hrun : runAll ops s = .ok (rs, s')) :
    (∃ T' os', SysOk s' true T' os') ∧ s'.env = s.env ∧ s'.inodesTree = s.inodesTree := by
  induction ops generalizing s T os rs with
  | nil =>
    have hs : Except.ok (([], s) : List SysRes × Sb) = Except.ok (rs, s') := hrun
    rw [Except.ok.injEq, Prod.mk.injEq] at hs
    rw [← hs.2]
    exact ⟨⟨T, os, h⟩, rfl, rfl⟩
  | cons op ops ih =>
    obtain ⟨r, s₁, hop, hrest⟩ := run_bind_inv hrun
    obtain ⟨rs', hrest, -⟩ := run_map_inv hrest
    obtain ⟨⟨T₁, os₁, h₁⟩, -, henv, htree⟩ := (SysOp.run_spec h op.within_true).result hop
    obtain ⟨h', henv', htree'⟩ := ih h₁ hrest
    exact ⟨h', henv'.trans henv, htree'.trans htree⟩

end counter

/-! ### Loading -/

section load

variable {s sf : Sb} {T : TreeView} {os : List Layout} {d : Device} {n : ℤ} {id : Key}

/-- A header as `nkfs_sb_fill_header` leaves it passes the checks of a load. -/
lemma sbCheck_ok {nrBlocks bmBlocks root used : ℕ} (hroom : 1 + bmBlocks < nrBlocks) : sbCheck
      { magic := imageMagic, version := imageVer1, id := id, size := nrBlocks * blockSize
        bmBlock := imageBmBlock, bmBlocks := bmBlocks, inodesTreeBlock := root
        usedBlocks := used, bsize := blockSize } = .ok () := by
  have hbs : blockSize = 65536 := rfl
  have hbm : imageBmBlock = 1 := rfl
  have hmod : nrBlocks * blockSize % blockSize = 0 := Nat.mul_mod_left ..
  unfold sbCheck
  rw [if_neg (not_not.mpr rfl), if_neg (not_not.mpr rfl), if_neg ?_, if_neg (not_not.mpr rfl), if_neg ?_]
  · simp only [hbm, hbs]
    have hwrap := Nat.mod_le (bmBlocks + 1) (2 ^ 64)
    omega
  · rintro (h | h | h | h)
    · simp only [hbs] at h
      omega
    · simp only [hbs] at h
      omega
    · simp only [hbs] at h
      omega
    · exact h hmod

lemma parseHeader_fillHeader (d : Device) :
    parseHeader d.headerSum (fillHeader d) = .ok (fillHeader d).toHeaderFields := by
  simp [parseHeader, fillHeader]

/-- The root of a tree can be read again. -/
lemma IsTree.reopen {keyed : Bool} {root height : ℕ} {es : List (Key × ℕ)} {bs : List ℕ}
    (h : IsTree s keyed root height es bs) {s' : Sb} (henv : s'.env = s.env) (hnodes : s'.nodes = s.nodes) :
    root < s.env.nrBlocks ∧ btreeCreate root s' = .ok (some { root := root, releasing := false }, s') := by
  obtain ⟨below, hheight⟩ := Nat.exists_eq_succ_of_ne_zero h.pos.ne'
  have hsub := h.sub
  rw [hheight] at hsub
  obtain ⟨node, hnode, hok⟩ := hsub.node
  have hown : s.Owned root := hsub.owned root mem_blocks_self
  have hread : nodeRead root s' = .ok (some node, s') :=
    nodeRead_eq hown.ne_zero (henv ▸ hown.lt) (hnodes ▸ hnode) hok.block
  refine ⟨hown.lt, ?_⟩
  unfold btreeCreate
  rw [if_pos hown.ne_zero]
  exact run_bind_ok hread

/-- The root of the tree of inodes can be read; the counter and the flags do not matter. -/
lemma SysOk.btreeCreate_root (h : SysOk s true T os) (s' : Sb) (henv : s'.env = s.env)
    (hnodes : s'.nodes = s.nodes) : s.inodesTree.root < s.env.nrBlocks ∧
      btreeCreate s.inodesTree.root s' = .ok (some s.inodesTree, s') := by
  rw [h.inodesTree]
  exact h.tree.reopen henv hnodes

/-- A load finds the tree whose root it can read, and the counter of the header. -/
lemma sbLoad_of_root (hrunning : s.stopping = false) (hlt : s.inodesTree.root < s.env.nrBlocks)
    (hcreate : ∀ s', s'.env = s.env → s'.nodes = s.nodes →
      btreeCreate s.inodesTree.root s' = .ok (some s.inodesTree, s'))
    (hc : s.Covered) (h0 : 0 ≤ n) (hn : n < 2 ^ 63)
    {stopping : Bool} {tree : Tree} (hsb : d.sb = { s with stopping := stopping, inodesTree := tree })
    (hheader : d.header = fillHeader { d with sb := { s with usedBlocks := n }, id := id }) :
    sbLoad (s.env.nrBlocks * blockSize) true d =
      .ok (.ok (), { d with sb := { s with usedBlocks := n }, id := id }) := by
  have hparse : sbParse d = .ok (d.header.toHeaderFields, { s with
      usedBlocks := n, stopping := false, inodesTree := tree }) := by
    have hfields : parseHeader d.headerSum d.header = .ok d.header.toHeaderFields := by
      rw [hheader]
      exact parseHeader_fillHeader { d with sb := { s with usedBlocks := n }, id := id }
    have hcheck : sbCheck d.header.toHeaderFields = .ok () := by
      rw [hheader]
      exact sbCheck_ok hc.room
    have hdiv : s.env.nrBlocks * blockSize / blockSize = s.env.nrBlocks :=
      Nat.mul_div_cancel _ (by decide)
    unfold sbParse
    rw [except_bind_ok hfields, except_bind_ok hcheck, hheader, hsb]
    simp only [fillHeader, hdiv, intOfU64_u64OfInt h0 hn]
    rfl
  have hfield : d.header.size = s.env.nrBlocks * blockSize ∧
      d.header.inodesTreeBlock = s.inodesTree.root ∧ d.header.id = id := by
    rw [hheader]
    exact ⟨rfl, rfl, rfl⟩
  obtain ⟨hsize, hroot, hid⟩ := hfield
  unfold sbLoad
  rw [if_neg (by decide), run_get, hparse]
  dsimp only
  rw [hsize, if_neg (lt_irrefl _), hroot, if_neg (not_le.mpr hlt), hid]
  have hload : onDevice (btreeCreate s.inodesTree.root)
      { d with sb := { s with usedBlocks := n, stopping := false, inodesTree := tree }, id := id } =
      .ok (some s.inodesTree,
        { d with sb := { s with usedBlocks := n, stopping := false, inodesTree := tree }, id := id }) :=
    zoom_ok (hcreate _ rfl rfl)
  refine (run_bind_ok rfl).trans ((run_bind_ok hload).trans ?_)
  have hflag : { s with usedBlocks := n, stopping := false } = { s with usedBlocks := n } := by
    rw [← hrunning]
  exact congrArg (fun sb => Except.ok (Except.ok (), { d with sb := sb, id := id })) hflag

/-- **A load** gives the superblock that wrote the header, with the counter of the header. -/
theorem sbLoad_run (h : SysOk s true T os) (hc : s.Covered) (h0 : 0 ≤ n) (hn : n < 2 ^ 63)
    {stopping : Bool} {tree : Tree} (hsb : d.sb = { s with stopping := stopping, inodesTree := tree })
    (hheader : d.header = fillHeader { d with sb := { s with usedBlocks := n }, id := id }) :
    sbLoad (s.env.nrBlocks * blockSize) true d =
      .ok (.ok (), { d with sb := { s with usedBlocks := n }, id := id }) :=
  sbLoad_of_root h.running (h.btreeCreate_root s rfl rfl).1
    (fun s' henv hnodes => (h.btreeCreate_root s' henv hnodes).2) hc h0 hn hsb hheader

end load

/-! ### Runs that are cut off -/

/-- A run that was cut off after its requests, with or without a stop. -/
structure CutRun (size : ℕ) (stopped : Bool) (df d d' : Device) : Prop where
  size_lt : size < 2 ^ 63
  format : ∃ id d₀, devFormat id size d₀ = .ok (.ok (), df)
  requests : ∃ ops rs, onDevice (runAll ops) df = .ok (rs, d)
  stop : runWhen stopped sbStop d = .ok ((), d')

section cut

variable {size : ℕ} {stopped : Bool} {df d d' : Device} {s : Sb} {T : TreeView} {os : List Layout}

lemma genHeader_dvd {bmBlocks : ℕ} (h : genHeader size = .ok bmBlocks) :
    size / blockSize * blockSize = size := by
  unfold genHeader at h
  split_ifs at h with hbad
  exact Nat.div_mul_cancel (Nat.dvd_of_mod_eq_zero (not_not.mp (not_or.mp hbad).1))

/-- What the format leaves. -/
lemma devFormat_inv {id : Key} {d₀ : Device} (hsize : size < 2 ^ 63)
    (hrun : devFormat id size d₀ = .ok (.ok (), df)) :
    (∃ root, SysOk df.sb true (TreeView.empty root) []) ∧ df.sb.Covered ∧
      size = df.sb.env.nrBlocks * blockSize ∧ df.header = fillHeader df := by
  obtain ⟨r, d₁, hformat, hrest⟩ := run_bind_inv hrun
  obtain ⟨sb, hsb, rfl⟩ := zoom_inv hformat
  cases r with
  | error e => cases hrest
  | ok _ =>
    have hdf : df = { d₀ with sb := sb, id := id, header := fillHeader { d₀ with sb := sb, id := id } } := by
      have hrest : Except.ok (Except.ok (), { d₀ with
          sb := sb, id := id, header := fillHeader { d₀ with sb := sb, id := id } }) =
          (Except.ok (Except.ok (), df) : Except (Fault × Device) (Except Errno Unit × Device)) := hrest
      rw [Except.ok.injEq, Prod.mk.injEq] at hrest
      exact hrest.2.symm
    subst hdf
    rcases (sbFormat_spec d₀.sb true hsize).result hsb with ⟨-, hsys, -, bmBlocks, hgen, henv⟩ | ⟨e, he, -⟩
    · obtain ⟨hroom, hcover⟩ := genHeader_ok hgen
      refine ⟨hsys, ⟨?_, ?_⟩, ?_, rfl⟩
      · rw [henv]
        exact hroom
      · rw [henv]
        exact hcover
      · rw [henv]
        exact (genHeader_dvd hgen).symm
    · cases he

/-- The requests keep the device in order and leave its header alone. -/
lemma CutRun.inv (h : CutRun size stopped df d d') :
    (∃ root, SysOk df.sb true (TreeView.empty root) []) ∧ (∃ T os, SysOk d.sb true T os) ∧
      df.sb.Covered ∧ d.sb.env = df.sb.env ∧ d.sb.inodesTree = df.sb.inodesTree ∧
      size = df.sb.env.nrBlocks * blockSize ∧ d.id = df.id ∧ d.headerSum = df.headerSum ∧
      d.header = fillHeader df := by
  obtain ⟨id, d₀, hformat⟩ := h.format
  obtain ⟨ops, rs, hops⟩ := h.requests
  obtain ⟨⟨root, hsys⟩, hc, hsize, hheader⟩ := devFormat_inv h.size_lt hformat
  obtain ⟨sb, hsb, rfl⟩ := zoom_inv hops
  obtain ⟨hsys', henv, htree⟩ := hsys.runAll hsb
  exact ⟨⟨root, hsys⟩, hsys', hc, henv, htree, hsize, rfl, rfl, hheader⟩

/-- The device after a stop. -/
def Device.halted (d : Device) : Device :=
  let sb := { d.sb with stopping := true, inodesTree := { d.sb.inodesTree with releasing := true } }
  { d with sb := sb, header := fillHeader { d with sb := sb } }

lemma sbStop_run (d : Device) : sbStop d = .ok ((), d.halted) := rfl

/-- What the header is made of. -/
lemma fillHeader_congr (hid : d'.id = d.id) (hsum : d'.headerSum = d.headerSum)
    (henv : d'.sb.env = d.sb.env) (htree : d'.sb.inodesTree.root = d.sb.inodesTree.root)
    (hused : d'.sb.usedBlocks = d.sb.usedBlocks) : fillHeader d' = fillHeader d := by
  unfold fillHeader
  rw [hid, hsum, henv, htree, hused]

/-- A load of the device finds the counter `n`, that of the last write of the header. -/
lemma CutRun.load (h : CutRun size stopped df d d') : sbLoad size true d' = .ok (.ok (), { d' with
      sb := { d.sb with usedBlocks := if stopped then d.sb.usedBlocks else df.sb.usedBlocks } }) := by
  obtain ⟨⟨root, hsys⟩, ⟨T, os, hsys'⟩, hc, henv, htree, hsize, hid, hsum, hheader⟩ := h.inv
  have hc' : d.sb.Covered := hc.of_env henv
  obtain ⟨h0, -, hlt⟩ := hsys.used_bounds hc
  obtain ⟨h0', -, hlt'⟩ := hsys'.used_bounds hc'
  rw [hsize, ← henv]
  have hstop := h.stop
  cases stopped with
  | false =>
    have heq : d = d' := by
      rw [runWhen_false, Except.ok.injEq, Prod.mk.injEq] at hstop
      exact hstop.2
    subst heq
    refine sbLoad_run hsys' hc' h0 hlt rfl ?_
    rw [hheader]
    exact fillHeader_congr hid.symm hsum.symm henv.symm (congrArg Tree.root htree).symm rfl
  | true =>
    have heq : d.halted = d' := by
      rw [runWhen_true (sbStop_run d), Except.ok.injEq, Prod.mk.injEq] at hstop
      exact hstop.2
    subst heq
    refine sbLoad_run hsys' hc' h0' hlt' rfl ?_
    exact fillHeader_congr rfl rfl rfl rfl rfl

end cut

end Nkfs
