import Nkfs.Object.Remount

/-!
# The layout of a device

`nkfs_sb_gen_header` computes the layout in 64 bits: block 0 for the header, the bitmap from block 1 on, and one
bit for every block. On any device it accepts, no sum or product wraps, and the result is the one in natural
numbers (`genHeader64_toNat`). The format then marks the header and the bitmap, the root of the tree of inodes
goes to the block after them, and a load of the device gives the superblock back (`format_geometry`).

`nkfs_sb_load` believes most of what it reads. What a header has to satisfy on top of its checks is listed in
`load_consistent_iff`.
-/

namespace Nkfs

open Lib.Program

/-! ### 64-bit arithmetic -/

/-- `do_div` takes the divisor as a `u32`. Source: `core/helpers.h` `nkfs_div_round_up` -/
def nkfsDivRoundUp (x y : UInt64) : UInt64 := (x + y - 1) / y.toUInt32.toUInt64

/-- Source: `core/helpers.h` `nkfs_div` -/
def nkfsDiv (x y : UInt64) : UInt64 := x / y.toUInt32.toUInt64

/-- Source: `core/helpers.h` `nkfs_mod` -/
def nkfsMod (x y : UInt64) : UInt32 := (x % y.toUInt32.toUInt64).toUInt32

/-- The number of bitmap blocks. Source: `core/super.c` `nkfs_sb_gen_header` -/
def genHeader64 (size : UInt64) (bsize : UInt32) : Except Errno UInt64 :=
  if nkfsMod size bsize.toUInt64 ≠ 0 ∨ size ≤ bsize.toUInt64 then .error .einval
  else
    let bmBlocks := nkfsDivRoundUp (nkfsDivRoundUp (nkfsDiv size bsize.toUInt64) 8) bsize.toUInt64
    if size ≤ (1 + bmBlocks) * bsize.toUInt64 then .error .einval else .ok bmBlocks

/-- `NKFS_BLOCK_SIZE` -/
def blockSize32 : UInt32 := 65536

section arithmetic

variable {x y size : UInt64}

lemma divRoundUp_eq {x y : ℕ} (hy : 0 < y) : divRoundUp x y = (x + y - 1) / y := by
  have hx := Nat.div_add_mod x y
  have hlt := Nat.mod_lt x hy
  unfold divRoundUp
  split_ifs with hr
  · symm
    rw [Nat.div_eq_iff hy, Nat.add_mul, mul_comm]
    omega
  · symm
    rw [Nat.div_eq_iff hy, mul_comm]
    omega

lemma toNat_toUInt32 (hy : y.toNat < 2 ^ 32) : y.toUInt32.toUInt64.toNat = y.toNat := by
  rw [UInt32.toNat_toUInt64, UInt64.toNat_toUInt32, Nat.mod_eq_of_lt hy]

lemma toNat_nkfsDiv (hy : y.toNat < 2 ^ 32) : (nkfsDiv x y).toNat = x.toNat / y.toNat := by
  unfold nkfsDiv
  rw [UInt64.toNat_div, toNat_toUInt32 hy]

lemma toNat_nkfsDivRoundUp (hy0 : 0 < y.toNat) (hy : y.toNat < 2 ^ 32) (hsum : x.toNat + y.toNat < 2 ^ 64) :
    (nkfsDivRoundUp x y).toNat = divRoundUp x.toNat y.toNat := by
  have hadd : (x + y).toNat = x.toNat + y.toNat := by
    rw [UInt64.toNat_add, Nat.mod_eq_of_lt hsum]
  have hone : (1 : UInt64) ≤ x + y := by
    rw [UInt64.le_iff_toNat_le, hadd]
    exact Nat.le_add_left_of_le hy0
  unfold nkfsDivRoundUp
  rw [UInt64.toNat_div, toNat_toUInt32 hy, UInt64.toNat_sub_of_le _ _ hone, hadd, divRoundUp_eq hy0]
  rfl

end arithmetic

/-- The sums and products on the way to the layout, and the number of bits of the bitmap, are those of natural
numbers. -/
structure NoWrap (size bmBlocks : UInt64) : Prop where
  roundBytes : (nkfsDiv size blockSize32.toUInt64 + 8).toNat = size.toNat / blockSize + 8
  roundBlocks : (nkfsDivRoundUp (nkfsDiv size blockSize32.toUInt64) 8 + blockSize32.toUInt64).toNat =
    divRoundUp (size.toNat / blockSize) 8 + blockSize
  reserved : (1 + bmBlocks).toNat = 1 + bmBlocks.toNat
  reservedBytes : ((1 + bmBlocks) * blockSize32.toUInt64).toNat = (1 + bmBlocks.toNat) * blockSize
  bits : 8 * blockSize * bmBlocks.toNat < 2 ^ 64

section layout

variable {size bmBlocks : UInt64}

lemma toNat_nrBlocks (size : UInt64) : (nkfsDiv size blockSize32.toUInt64).toNat = size.toNat / blockSize :=
  toNat_nkfsDiv (by decide)

lemma nrBlocks_lt (size : UInt64) : size.toNat / blockSize < 2 ^ 48 := by
  have hlt : size.toNat < 2 ^ 64 := UInt64.toNat_lt size
  show size.toNat / 65536 < 2 ^ 48
  omega

lemma divRoundUp_le {x y : ℕ} : divRoundUp x y ≤ x / y + 1 := by
  unfold divRoundUp
  split_ifs
  · exact le_rfl
  · exact Nat.le_succ _

lemma toNat_bitmapBytes (size : UInt64) :
    (nkfsDivRoundUp (nkfsDiv size blockSize32.toUInt64) 8).toNat = divRoundUp (size.toNat / blockSize) 8 := by
  have hlt := nrBlocks_lt size
  rw [← toNat_nrBlocks] at hlt ⊢
  apply toNat_nkfsDivRoundUp
  · decide
  · decide
  · show _ + 8 < _
    omega

lemma bitmapBytes_lt (size : UInt64) : divRoundUp (size.toNat / blockSize) 8 < 2 ^ 46 := by
  have hlt := nrBlocks_lt size
  have hle : divRoundUp (size.toNat / blockSize) 8 ≤ size.toNat / blockSize / 8 + 1 := divRoundUp_le
  omega

lemma toNat_bitmapBlocks (size : UInt64) :
    (nkfsDivRoundUp (nkfsDivRoundUp (nkfsDiv size blockSize32.toUInt64) 8) blockSize32.toUInt64).toNat =
      divRoundUp (divRoundUp (size.toNat / blockSize) 8) blockSize := by
  have hlt := bitmapBytes_lt size
  rw [← toNat_bitmapBytes] at hlt ⊢
  apply toNat_nkfsDivRoundUp
  · decide
  · decide
  · show _ + 65536 < _
    omega

lemma bitmapBlocks_lt (size : UInt64) : divRoundUp (divRoundUp (size.toNat / blockSize) 8) blockSize < 2 ^ 31 := by
  have hlt := bitmapBytes_lt size
  have hle : divRoundUp (divRoundUp (size.toNat / blockSize) 8) blockSize ≤
      divRoundUp (size.toNat / blockSize) 8 / 65536 + 1 := divRoundUp_le
  omega

lemma toNat_reserved (hbm : bmBlocks.toNat < 2 ^ 31) : (1 + bmBlocks).toNat = 1 + bmBlocks.toNat := by
  rw [UInt64.toNat_add]
  apply Nat.mod_eq_of_lt
  show 1 + _ < _
  omega

lemma toNat_reservedBytes (hbm : bmBlocks.toNat < 2 ^ 31) :
    ((1 + bmBlocks) * blockSize32.toUInt64).toNat = (1 + bmBlocks.toNat) * blockSize := by
  rw [UInt64.toNat_mul, toNat_reserved hbm]
  apply Nat.mod_eq_of_lt
  show (1 + _) * 65536 < _
  omega

lemma toNat_nkfsMod (size : UInt64) : (nkfsMod size blockSize32.toUInt64).toNat = size.toNat % blockSize := by
  unfold nkfsMod
  rw [UInt64.toNat_toUInt32, UInt64.toNat_mod]
  apply Nat.mod_eq_of_lt
  show size.toNat % 65536 < 2 ^ 32
  omega

/-- The 64-bit layout is the one in natural numbers. -/
lemma genHeader64_toNat (size : UInt64) :
    (genHeader64 size blockSize32).map UInt64.toNat = genHeader size.toNat := by
  have hmod : nkfsMod size blockSize32.toUInt64 ≠ 0 ↔ size.toNat % blockSize ≠ 0 := by
    rw [← toNat_nkfsMod, ne_eq, ← UInt32.toNat_inj]
    rfl
  have hsmall : size ≤ blockSize32.toUInt64 ↔ size.toNat ≤ blockSize := UInt64.le_iff_toNat_le
  have hbm := toNat_bitmapBlocks size
  have hlt := bitmapBlocks_lt size
  rw [← hbm] at hlt
  have hroom := toNat_reservedBytes hlt
  unfold genHeader64 genHeader
  simp only [hmod, hsmall, UInt64.le_iff_toNat_le, hroom, hbm]
  split_ifs
  · rfl
  · rfl
  · exact congrArg Except.ok hbm

lemma genHeader_of_genHeader64 (h : genHeader64 size blockSize32 = .ok bmBlocks) :
    genHeader size.toNat = .ok bmBlocks.toNat := by
  rw [← genHeader64_toNat, h]
  rfl

lemma genHeader64_lt (h : genHeader64 size blockSize32 = .ok bmBlocks) : bmBlocks.toNat < 2 ^ 31 := by
  have hlt := bitmapBlocks_lt size
  rw [← toNat_bitmapBlocks] at hlt
  unfold genHeader64 at h
  simp only at h
  split_ifs at h
  rwa [← Except.ok.inj h]

lemma noWrap_of_genHeader64 (h : genHeader64 size blockSize32 = .ok bmBlocks) : NoWrap size bmBlocks := by
  have hlt := genHeader64_lt h
  have hnr := nrBlocks_lt size
  have hbytes := bitmapBytes_lt size
  constructor
  · rw [UInt64.toNat_add, toNat_nrBlocks]
    apply Nat.mod_eq_of_lt
    show _ + 8 < _
    omega
  · rw [UInt64.toNat_add, toNat_bitmapBytes]
    apply Nat.mod_eq_of_lt
    show _ + 65536 < _
    omega
  · exact toNat_reserved hlt
  · exact toNat_reservedBytes hlt
  · show 8 * 65536 * _ < _
    omega

end layout

/-! ### Formatting -/

/-- The superblock in terms of its header when `nkfs_sb_create` checks it. -/
def genFields (id : Key) (size bmBlocks : ℕ) : HeaderFields where
  magic := imageMagic
  version := imageVer1
  id := id
  size := size
  bmBlock := imageBmBlock
  bmBlocks := bmBlocks
  inodesTreeBlock := 0
  usedBlocks := 0
  bsize := blockSize

/-- The superblock after the format: the header, the bitmap and the root of the tree are in use, and the tree can
be opened again. -/
structure Laid (env : Env) (size bmBlocks : ℕ) (s : Sb) : Prop where
  env : s.env = { env with nrBlocks := size / blockSize, bmBlocks := bmBlocks }
  tree : s.inodesTree = { root := imageBmBlock + bmBlocks, releasing := false }
  running : s.stopping = false
  bits : ∀ b, s.bm b = true ↔ b < imageBmBlock + bmBlocks ∨ b = imageBmBlock + bmBlocks
  used : s.usedBlocks = (imageBmBlock + bmBlocks + 1 : ℕ)
  reopen : ∀ s', s'.env = s.env → s'.nodes = s.nodes →
    btreeCreate s.inodesTree.root s' = .ok (some s.inodesTree, s')

/-- What the format leaves on the device. -/
structure Formatted (id : Key) (size bmBlocks : ℕ) (d : Device) : Prop where
  bits : ∀ b, d.sb.bm b = true ↔ b < imageBmBlock + bmBlocks ∨ b = d.sb.inodesTree.root
  root : d.sb.inodesTree.root = imageBmBlock + bmBlocks
  header : d.header.toHeaderFields = { genFields id size bmBlocks with
    inodesTreeBlock := imageBmBlock + bmBlocks, usedBlocks := imageBmBlock + bmBlocks + 1 }
  load : sbLoad size true d = .ok (.ok (), d)

section format

variable {s s' : Sb} {t : Tree} {size bmBlocks : ℕ}

lemma nodeCreate_first {node : Node} (hrun : nodeCreate s = .ok (some node, s')) {b : ℕ} (hb : b < node.block)
    (hcovered : b / (8 * blockSize) < s.env.bmBlocks) : s.bm b = true := by
  unfold nodeCreate at hrun
  rw [run_bind_ok (nextAlloc_run s)] at hrun
  split_ifs at hrun
  · obtain ⟨r, s₁, halloc, hrest⟩ := run_bind_inv hrun
    cases r with
    | error e => cases hrest
    | ok block =>
      obtain ⟨_, s₂, -, hret⟩ := run_bind_inv hrest
      cases hret
      have hset : (s.tried !s.env.fails s.tick).bm b = true := blockAlloc_first halloc hb hcovered
      exact hset
  · cases hrun

/-- The root of a new tree is the lowest free block. -/
lemma btreeCreate_first (hrun : btreeCreate 0 s = .ok (some t, s')) {b : ℕ} (hb : b < t.root)
    (hcovered : b / (8 * blockSize) < s.env.bmBlocks) : s.bm b = true := by
  unfold btreeCreate at hrun
  rw [if_neg (fun h => h rfl)] at hrun
  obtain ⟨node, s₁, hnode, hrest⟩ := run_bind_inv hrun
  cases node with
  | none => cases hrest
  | some node =>
    obtain ⟨_, s₂, -, hret⟩ := run_bind_inv hrest
    cases hret
    exact nodeCreate_first hnode hb hcovered

/-- On the cleared device that is the block after the bitmap. -/
lemma cleared_root (hgen : genHeader size = .ok bmBlocks)
    (hrun : btreeCreate 0 (s.cleared size bmBlocks) = .ok (some t, s'))
    (hfree : (s.cleared size bmBlocks).bm t.root = false) : t.root = imageBmBlock + bmBlocks := by
  have hge : ¬ t.root < 1 + bmBlocks := fun hlt => of_decide_eq_false hfree (List.mem_range.mpr hlt)
  by_contra hne
  have hlt : 1 + bmBlocks < t.root := lt_of_le_of_ne (not_lt.mp hge) (Ne.symm hne)
  obtain ⟨hroom, hcovers⟩ := genHeader_ok hgen
  have hset := btreeCreate_first hrun hlt (Nat.div_lt_of_lt_mul (hroom.trans_le hcovers))
  exact absurd (List.mem_range.mp (of_decide_eq_true hset)) (lt_irrefl _)

/-- **Formatting**, with any number of failing allocations: it succeeds if none fails. -/
theorem sbFormat_laid (s : Sb) (hgen : genHeader size = .ok bmBlocks) : Runs (sbFormat size) s fun r s' =>
    ((∀ i, s.env.fails i = false) → r = .ok ()) ∧ (r = .ok () → Laid s.env size bmBlocks s') := by
  by_cases hok : s.env.fails s.tick = true
  · have hnext : nextAlloc s = .ok (false, s.tried false) := by
      rw [nextAlloc_run, hok]
      rfl
    refine Runs.step hnext (Runs.pure ⟨fun hnone => ?_, fun h => ?_⟩)
    · rw [hnone] at hok
      cases hok
    · cases h
  · rw [Bool.not_eq_true] at hok
    rw [Runs, sbFormat_cleared hok hgen]
    obtain ⟨r, s₁, hrun, hspec⟩ := btreeCreate_spec (s := s.cleared size bmBlocks) cleared_zero
    refine Runs.step hrun ?_
    rcases hspec with ⟨t, rfl, hrel, hst, ht, -⟩ | ⟨rfl, -, -, hfull⟩
    · have hroot := cleared_root hgen hrun (hst.free t.root (List.mem_singleton_self _)).1
      refine Runs.get (Runs.set (Runs.pure ⟨fun _ => rfl, fun _ => ?_⟩))
      obtain ⟨root, rel⟩ := t
      obtain rfl : rel = false := hrel
      obtain rfl : root = imageBmBlock + bmBlocks := hroot
      refine ⟨hst.env, rfl, rfl, fun b => ?_, ?_, fun s' henv hnodes => (ht.reopen henv hnodes).2⟩
      · show s₁.bm b = true ↔ _
        rw [hst.bm]
        simp [Sb.cleared, imageBmBlock]
      · show s₁.usedBlocks = _
        rw [hst.used]
        simp [Sb.cleared, imageBmBlock]
    · exact Runs.pure ⟨fun hnone => absurd (cleared_ample hgen hnone) hfull, fun h => by cases h⟩

lemma Laid.covered {env : Env} (h : Laid env size bmBlocks s) (hgen : genHeader size = .ok bmBlocks) : s.Covered := by
  obtain ⟨hroom, hcovers⟩ := genHeader_ok hgen
  constructor
  · rw [h.env]
    exact hroom
  · rw [h.env]
    exact hcovers

/-- A load of the device, with any counter in the header. -/
lemma Laid.load {env : Env} {d : Device} {n : ℤ} (h : Laid env size bmBlocks d.sb)
    (hgen : genHeader size = .ok bmBlocks) (h0 : 0 ≤ n) (hn : n < 2 ^ 63)
    (hheader : d.header = fillHeader { d with sb := { d.sb with usedBlocks := n } }) :
    sbLoad size true d = .ok (.ok (), { d with sb := { d.sb with usedBlocks := n } }) := by
  have hlt : d.sb.inodesTree.root < d.sb.env.nrBlocks := by
    rw [h.tree, h.env]
    exact (genHeader_ok hgen).1
  have hsize : d.sb.env.nrBlocks * blockSize = size := by
    rw [h.env]
    exact genHeader_dvd hgen
  have hload := sbLoad_of_root h.running hlt h.reopen (h.covered hgen) h0 hn rfl hheader
  rw [hsize] at hload
  exact hload

/-- The header and the load. -/
lemma Laid.formatted {env : Env} {d : Device} {id : Key} (h : Laid env size bmBlocks d.sb)
    (hgen : genHeader size = .ok bmBlocks) (hbm : bmBlocks < 2 ^ 31) (hid : d.id = id)
    (hheader : d.header = fillHeader d) : Formatted id size bmBlocks d := by
  have hused : u64OfInt d.sb.usedBlocks = imageBmBlock + bmBlocks + 1 := by
    have hmod : ((imageBmBlock + bmBlocks + 1 : ℕ) : ℤ) % 2 ^ 64 = (imageBmBlock + bmBlocks + 1 : ℕ) := by
      unfold imageBmBlock
      omega
    rw [u64OfInt, h.used, hmod]
    rfl
  constructor
  · rw [h.tree]
    exact h.bits
  · rw [h.tree]
  · rw [hheader]
    simp only [fillHeader, genFields, hused, h.tree, h.env, genHeader_dvd hgen, hid]
  · have h0 : 0 ≤ d.sb.usedBlocks := by
      rw [h.used]
      exact Int.natCast_nonneg _
    have hn : d.sb.usedBlocks < 2 ^ 63 := by
      rw [h.used]
      unfold imageBmBlock
      omega
    exact h.load hgen h0 hn hheader

lemma devFormat_formatted (id : Key) (d : Device) (hgen : genHeader size = .ok bmBlocks) (hbm : bmBlocks < 2 ^ 31) :
    Runs (devFormat id size) d fun r d' =>
      ((∀ i, d.sb.env.fails i = false) → r = .ok ()) ∧ (r = .ok () → Formatted id size bmBlocks d') := by
  obtain ⟨r, sb, hrun, hnone, hlaid⟩ := sbFormat_laid d.sb hgen
  refine Runs.step (zoom_ok hrun) ?_
  cases r with
  | error e => exact Runs.pure ⟨hnone, nofun⟩
  | ok _ =>
    refine Runs.step rfl (Runs.step rfl (Runs.pure ⟨fun _ => rfl, fun _ => ?_⟩))
    exact Laid.formatted (hlaid rfl) hgen hbm rfl rfl

end format

/-- The layout that `nkfs_sb_gen_header` computes is sound. -/
structure GeometryOk (size bmBlocks : UInt64) : Prop where
  covers : size.toNat / blockSize ≤ 8 * bmBlocks.toNat * blockSize
  room : imageBmBlock + bmBlocks.toNat < size.toNat / blockSize
  noWrap : NoWrap size bmBlocks
  check : ∀ id, sbCheck (genFields id size.toNat bmBlocks.toNat) = .ok ()

/-- **Geometry.** Whatever the size of the device, an accepted layout is sound, and the format of the device, which
succeeds if no allocation fails, lays it out that way. -/
theorem format_geometry (size bmBlocks : UInt64) (h : genHeader64 size blockSize32 = .ok bmBlocks) :
    GeometryOk size bmBlocks ∧ ∀ (id : Key) (d : Device), Runs (devFormat id size.toNat) d fun r d' =>
      ((∀ i, d.sb.env.fails i = false) → r = .ok ()) ∧
        (r = .ok () → Formatted id size.toNat bmBlocks.toNat d') := by
  have hgen := genHeader_of_genHeader64 h
  have hwrap := noWrap_of_genHeader64 h
  obtain ⟨hroom, hcovers⟩ := genHeader_ok hgen
  refine ⟨⟨?_, hroom, hwrap, fun id => ?_⟩, fun id d => devFormat_formatted id d hgen (genHeader64_lt h)⟩
  · calc size.toNat / blockSize ≤ 8 * blockSize * bmBlocks.toNat := hcovers
      _ = 8 * bmBlocks.toNat * blockSize := by ring
  · unfold genFields
    rw [← genHeader_dvd hgen]
    exact sbCheck_ok hroom

/-- The largest device. -/
theorem format_geometry_largest : genHeader64 0xFFFFFFFFFFFF0000 blockSize32 = .ok 0x20000000 ∧
    GeometryOk 0xFFFFFFFFFFFF0000 0x20000000 := by
  have h : genHeader64 0xFFFFFFFFFFFF0000 blockSize32 = .ok 0x20000000 := by decide
  exact ⟨h, (format_geometry _ _ h).1⟩

/-! ### Loading -/

/-- The number of blocks that a header gives the device. -/
def HeaderFields.nrBlocks (f : HeaderFields) : ℕ := f.size / f.bsize

/-- The header describes a device that can be used. -/
structure Consistent (f : HeaderFields) : Prop where
  bsize : f.bsize = blockSize
  covers : f.nrBlocks ≤ 8 * f.bmBlocks * f.bsize
  room : f.bmBlock + f.bmBlocks < f.nrBlocks
  used : f.usedBlocks ≤ f.nrBlocks
  root : f.bmBlock + f.bmBlocks ≤ f.inodesTreeBlock ∧ f.inodesTreeBlock < f.nrBlocks

/-- What `nkfs_sb_load` does not check. -/
structure Unchecked (f : HeaderFields) : Prop where
  bsize : f.bsize = blockSize
  covers : f.nrBlocks ≤ 8 * f.bmBlocks * f.bsize
  used : f.usedBlocks ≤ f.nrBlocks
  root : 1 + f.bmBlocks ≤ f.inodesTreeBlock

section loading

variable {d d' : Device} {devSize : ℕ} {mem : Bool}

lemma parseHeader_inv {headerSum : HeaderFields → UInt64} {header : ImageHeader} {f : HeaderFields}
    (h : parseHeader headerSum header = .ok f) : f = header.toHeaderFields := by
  unfold parseHeader at h
  split_ifs at h
  exact (Except.ok.inj h).symm

lemma sbCheck_inv {f : HeaderFields} (h : sbCheck f = .ok ()) : f.bmBlock = imageBmBlock := by
  unfold sbCheck at h
  split_ifs at h with _ _ _ hbm
  exact not_not.mp hbm

lemma sbParse_inv {f : HeaderFields} {sb : Sb} (h : sbParse d = .ok (f, sb)) :
    f = d.header.toHeaderFields ∧ f.bmBlock = imageBmBlock ∧ sb.env.nrBlocks = f.nrBlocks := by
  unfold sbParse at h
  cases hparse : parseHeader d.headerSum d.header with
  | error e =>
    rw [hparse] at h
    cases h
  | ok g =>
    rw [except_bind_ok hparse] at h
    cases hcheck : sbCheck g with
    | error e =>
      rw [hcheck] at h
      cases h
    | ok _ =>
      rw [except_bind_ok hcheck] at h
      cases h
      exact ⟨parseHeader_inv hparse, sbCheck_inv hcheck, rfl⟩

/-- A load that succeeds has checked where the bitmap begins, and that the root is on the device. -/
lemma sbLoad_inv (h : sbLoad devSize mem d = .ok (.ok (), d')) :
    d.header.bmBlock = imageBmBlock ∧ d.header.inodesTreeBlock < d.header.nrBlocks := by
  unfold sbLoad at h
  split_ifs at h
  · cases h
  · rw [run_get] at h
    cases hparse : sbParse d with
    | error e =>
      rw [hparse] at h
      cases h
    | ok r =>
      obtain ⟨f, sb⟩ := r
      obtain ⟨rfl, hbm, hnr⟩ := sbParse_inv hparse
      rw [hparse] at h
      dsimp only at h
      split_ifs at h with hsize hroot
      · cases h
      · cases h
      · rw [hnr, ge_iff_le, not_le] at hroot
        exact ⟨hbm, hroot⟩

end loading

/-- **Loading.** A header that `nkfs_sb_load` accepts is consistent exactly if it satisfies what is not checked. -/
theorem load_consistent_iff (d d' : Device) (devSize : ℕ) (mem : Bool)
    (h : sbLoad devSize mem d = .ok (.ok (), d')) :
    Consistent d.header.toHeaderFields ↔ Unchecked d.header.toHeaderFields := by
  obtain ⟨hbm, hlt⟩ := sbLoad_inv h
  constructor
  · intro hc
    have hroot := hc.root.1
    rw [hbm] at hroot
    exact ⟨hc.bsize, hc.covers, hc.used, hroot⟩
  · intro hu
    have hroot : d.header.bmBlock + d.header.bmBlocks ≤ d.header.inodesTreeBlock := by
      rw [hbm]
      exact hu.root
    exact ⟨hu.bsize, hu.covers, hroot.trans_lt hlt, hu.used, hroot, hlt⟩

/-- A header of zeros. -/
def blankHeader : ImageHeader := ⟨⟨0, 0, Key.zero, 0, 0, 0, 0, 0, 0⟩, 0, 0⟩

/-- A device with a freshly formatted superblock, whose header has the counter `n`. -/
lemma exists_loaded (n : ℤ) (h0 : 0 ≤ n) (hn : n < 2 ^ 63) :
    ∃ d d', sbLoad (65536 * blockSize) true d = .ok (.ok (), d') ∧ d.header.toHeaderFields = { genFields Key.zero (65536 * blockSize) 1 with
      inodesTreeBlock := 2, usedBlocks := u64OfInt n } := by
  have hgen : genHeader (65536 * blockSize) = .ok 1 := by decide
  obtain ⟨r, s, -, hnone, hlaid⟩ := sbFormat_laid blankSb hgen
  have hl := hlaid (hnone fun _ => rfl)
  refine ⟨⟨s, Key.zero, fillHeader ⟨{ s with usedBlocks := n }, Key.zero, blankHeader, fun _ => 0⟩, fun _ => 0⟩, _,
    Laid.load hl hgen h0 hn rfl, ?_⟩
  simp only [fillHeader, genFields, hl.tree, hl.env, genHeader_dvd hgen]
  rfl

/-- With a counter in the header that fits the device, the header is consistent. -/
theorem load_consistent_formatted : ∃ d d', sbLoad (65536 * blockSize) true d = .ok (.ok (), d') ∧
    Consistent d.header.toHeaderFields := by
  obtain ⟨d, d', hload, hheader⟩ := exists_loaded 3 (by decide) (by decide)
  refine ⟨d, d', hload, (load_consistent_iff d d' _ true hload).mpr ?_⟩
  rw [hheader]
  constructor <;> decide

/-- A counter larger than the device is accepted. -/
theorem not_load_consistent : ¬ ∀ (d d' : Device) (devSize : ℕ) (mem : Bool),
    sbLoad devSize mem d = .ok (.ok (), d') → Consistent d.header.toHeaderFields := by
  intro h
  obtain ⟨d, d', hload, hheader⟩ := exists_loaded 65537 (by decide) (by decide)
  have hused := (h d d' _ true hload).used
  rw [hheader] at hused
  exact absurd hused (by decide)

end Nkfs
