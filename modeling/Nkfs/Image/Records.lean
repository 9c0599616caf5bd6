import Nkfs.Lib.Bytes
import Nkfs.Object.Remount

/-!
# The image header and the inode on disk

`struct nkfs_image_header` and `struct nkfs_inode_disk` are packed: numbers in big-endian order, an object id as
its 16 bytes, then a checksum of everything before it, in host order, and a signature. The checksum is an arbitrary
function of the bytes fed to it.

Both records are read back as they were written, and two records that are accepted and agree up to the checksum
are read as the same (`records_round_trip`). `parseHeader_refines` connects the bytes with the header that the
model of the superblock works on.
-/

namespace Nkfs.Records

open Lib.Bytes

/-- `NKFS_INODE_SIG1` -/
def inodeSig1 : ℕ := 0xCBDACBDA

/-- `NKFS_INODE_SIG2` -/
def inodeSig2 : ℕ := 0xBEDABEDA

/-! ### Ids -/

/-- The bytes of an id. -/
def idMem (id : Key) : Mem := fun i => (id.1.map UInt8.ofFin).getD i 0

/-- The id at `off`. -/
def loadId (m : Mem) (off : ℕ) : Key := ⟨(slice m off 16).map UInt8.toFin, by simp⟩

lemma loadId_congr {m m' : Mem} {off : ℕ} (h : slice m off 16 = slice m' off 16) : loadId m off = loadId m' off :=
  Subtype.ext (congrArg (List.map UInt8.toFin) h)

lemma loadId_copyIn (m : Mem) (off : ℕ) (id : Key) : loadId (copyIn m off (idMem id) 16) off = id := by
  apply Subtype.ext
  show (slice (copyIn m off (idMem id) 16) off 16).map UInt8.toFin = id.1
  rw [slice_copyIn]
  have hlen : id.1.length = 16 := id.2
  apply List.ext_getElem
  · simp [hlen]
  · intro i hi hi'
    simp [slice, idMem, hi']

/-! ### Numbers -/

lemma uint32_mod (x : UInt32) : UInt32.ofNat (x.toNat % 256 ^ 4) = x := by
  have hlt : x.toNat < 256 ^ 4 := x.toNat_lt
  rw [Nat.mod_eq_of_lt hlt, UInt32.ofNat_toNat]

lemma uint64_mod (x : UInt64) : UInt64.ofNat (x.toNat % 256 ^ 8) = x := by
  have hlt : x.toNat < 256 ^ 8 := x.toNat_lt
  rw [Nat.mod_eq_of_lt hlt, UInt64.ofNat_toNat]

/-! ### The image header -/

/-- The part of `struct nkfs_sb` that goes into the header. -/
structure SbFields where
  magic : UInt32
  version : UInt32
  id : Key
  size : UInt64
  bsize : UInt32
  bmBlock : UInt64
  bmBlocks : UInt64
  inodesTreeBlock : UInt64
  usedBlocks : UInt64

/-- `offsetof(struct nkfs_image_header, sum)` -/
def headerSumOff : ℕ := 68

/-- Source: `core/super.c` `nkfs_image_header_sum` -/
def imageHeaderSum (csum : List UInt8 → UInt64) (header : Mem) : UInt64 := csum (slice header 0 headerSumOff)

/-- `nkfs_sb_fill_header` up to the checksum. -/
def sbFillFields (sb : SbFields) (header : Mem) : Mem :=
  let h := copyIn header 0 (fun _ => 0) 80
  let h := storeBe h 0 4 sb.magic.toNat
  let h := storeBe h 4 4 sb.version.toNat
  let h := storeBe h 56 8 sb.usedBlocks.toNat
  let h := storeBe h 24 8 sb.size.toNat
  let h := storeBe h 64 4 sb.bsize.toNat
  let h := storeBe h 32 8 sb.bmBlock.toNat
  let h := storeBe h 40 8 sb.bmBlocks.toNat
  let h := storeBe h 48 8 sb.inodesTreeBlock.toNat
  let h := storeBe h 76 4 imageSig
  copyIn h 8 (idMem sb.id) 16

/-- Source: `core/super.c` `nkfs_sb_fill_header` -/
def sbFillHeader (csum : List UInt8 → UInt64) (sb : SbFields) (header : Mem) : Mem :=
  let h := sbFillFields sb header
  storeLe h headerSumOff 8 (imageHeaderSum csum h).toNat

/-- The fields as they are read. -/
def sbFieldsAt (header : Mem) : SbFields where
  magic := .ofNat (loadBe header 0 4)
  version := .ofNat (loadBe header 4 4)
  size := .ofNat (loadBe header 24 8)
  bsize := .ofNat (loadBe header 64 4)
  bmBlock := .ofNat (loadBe header 32 8)
  bmBlocks := .ofNat (loadBe header 40 8)
  inodesTreeBlock := .ofNat (loadBe header 48 8)
  usedBlocks := .ofNat (loadBe header 56 8)
  id := loadId header 8

/-- Source: `core/super.c` `nkfs_sb_parse_header` -/
def sbParseHeader (csum : List UInt8 → UInt64) (header : Mem) : Except Errno SbFields :=
  if loadBe header 76 4 ≠ imageSig then .error .einval
  else if loadLe header headerSumOff 8 ≠ (imageHeaderSum csum header).toNat then .error .einval
  else .ok (sbFieldsAt header)

/-! ### The inode -/

/-- The part of `struct nkfs_inode` that goes to disk. -/
structure InodeFields where
  ino : Key
  size : UInt64
  blocksTreeBlock : UInt64
  blocksSumTreeBlock : UInt64

/-- What `nkfs_inode_parse_on_disk` sets. -/
structure ParsedInode extends InodeFields where
  sig1 : UInt32
  sig2 : UInt32

/-- `offsetof(struct nkfs_inode_disk, sum)` -/
def inodeSumOff : ℕ := 44

/-- Source: `core/inode.c` `nkfs_inode_on_disk_sum` -/
def inodeOnDiskSum (csum : List UInt8 → UInt64) (onDisk : Mem) : UInt64 := csum (slice onDisk 0 inodeSumOff)

/-- `nkfs_inode_to_on_disk` up to the checksum. -/
def inodeFillFields (inode : InodeFields) (onDisk : Mem) : Mem :=
  let d := copyIn onDisk 4 (idMem inode.ino) 16
  let d := storeBe d 20 8 inode.size.toNat
  let d := storeBe d 28 8 inode.blocksTreeBlock.toNat
  let d := storeBe d 36 8 inode.blocksSumTreeBlock.toNat
  let d := storeBe d 0 4 inodeSig1
  storeBe d 52 4 inodeSig2

/-- Source: `core/inode.c` `nkfs_inode_to_on_disk` -/
def inodeToOnDisk (csum : List UInt8 → UInt64) (inode : InodeFields) (onDisk : Mem) : Mem :=
  let d := inodeFillFields inode onDisk
  storeLe d inodeSumOff 8 (inodeOnDiskSum csum d).toNat

/-- The fields as they are read. -/
def inodeFieldsAt (onDisk : Mem) : InodeFields where
  ino := loadId onDisk 4
  size := .ofNat (loadBe onDisk 20 8)
  blocksTreeBlock := .ofNat (loadBe onDisk 28 8)
  blocksSumTreeBlock := .ofNat (loadBe onDisk 36 8)

/-- Source: `core/inode.c` `nkfs_inode_parse_on_disk` -/
def inodeParseOnDisk (csum : List UInt8 → UInt64) (onDisk : Mem) : Except Errno ParsedInode :=
  if loadBe onDisk 0 4 ≠ inodeSig1 ∨ loadBe onDisk 52 4 ≠ inodeSig2 then .error .einval
  else if (inodeOnDiskSum csum onDisk).toNat ≠ loadLe onDisk inodeSumOff 8 then .error .einval
  else .ok
    { inodeFieldsAt onDisk with
      sig1 := .ofNat (loadBe onDisk 0 4)
      sig2 := .ofNat (loadBe onDisk 52 4) }

/-! ### Round trips -/

section

variable (csum : List UInt8 → UInt64)

lemma sbFieldsAt_fill (sb : SbFields) (header : Mem) (sum : ℕ) :
    sbFieldsAt (storeLe (sbFillFields sb header) headerSumOff 8 sum) = sb := by
  have hid : loadId (storeLe (sbFillFields sb header) headerSumOff 8 sum) 8 = sb.id := by
    rw [loadId_congr (slice_storeLe_apart (by decide))]
    exact loadId_copyIn _ _ _
  unfold sbFieldsAt
  rw [hid]
  unfold sbFillFields headerSumOff
  simp (disch := decide) only [loadBe_storeBe, loadBe_storeBe_apart, loadBe_storeLe_apart, loadBe_copyIn_apart,
    uint32_mod, uint64_mod]

lemma sbParse_fill (sb : SbFields) (header : Mem) : sbParseHeader csum (sbFillHeader csum sb header) = .ok sb := by
  have hsig : loadBe (sbFillHeader csum sb header) 76 4 = imageSig := by
    unfold sbFillHeader sbFillFields headerSumOff
    simp (disch := decide) only [loadBe_storeBe, loadBe_storeLe_apart, loadBe_copyIn_apart]
    rfl
  have hsum : loadLe (sbFillHeader csum sb header) headerSumOff 8 =
      (imageHeaderSum csum (sbFillHeader csum sb header)).toNat := by
    unfold sbFillHeader imageHeaderSum
    rw [loadLe_storeLe, slice_storeLe_apart (.inl (zero_add _).le)]
    exact Nat.mod_eq_of_lt (UInt64.toNat_lt _)
  unfold sbParseHeader
  rw [if_neg (not_not.mpr hsig), if_neg (not_not.mpr hsum)]
  exact congrArg Except.ok (sbFieldsAt_fill sb header _)

lemma inodeFieldsAt_fill (inode : InodeFields) (onDisk : Mem) (sum : ℕ) :
    inodeFieldsAt (storeLe (inodeFillFields inode onDisk) inodeSumOff 8 sum) = inode := by
  have hino : loadId (storeLe (inodeFillFields inode onDisk) inodeSumOff 8 sum) 4 = inode.ino := by
    rw [loadId_congr (slice_storeLe_apart (by decide))]
    unfold inodeFillFields
    simp (disch := decide) only [loadId, slice_storeBe_apart]
    exact loadId_copyIn _ _ _
  unfold inodeFieldsAt
  rw [hino]
  unfold inodeFillFields inodeSumOff
  simp (disch := decide) only [loadBe_storeBe, loadBe_storeBe_apart, loadBe_storeLe_apart, uint64_mod]

lemma inodeParse_toOnDisk (inode : InodeFields) (onDisk : Mem) :
    inodeParseOnDisk csum (inodeToOnDisk csum inode onDisk) =
      .ok { inode with sig1 := .ofNat inodeSig1, sig2 := .ofNat inodeSig2 } := by
  have hsig1 : loadBe (inodeToOnDisk csum inode onDisk) 0 4 = inodeSig1 := by
    unfold inodeToOnDisk inodeFillFields inodeSumOff
    simp (disch := decide) only [loadBe_storeBe, loadBe_storeBe_apart, loadBe_storeLe_apart]
    rfl
  have hsig2 : loadBe (inodeToOnDisk csum inode onDisk) 52 4 = inodeSig2 := by
    unfold inodeToOnDisk inodeFillFields inodeSumOff
    simp (disch := decide) only [loadBe_storeBe, loadBe_storeLe_apart]
    rfl
  have hsum : (inodeOnDiskSum csum (inodeToOnDisk csum inode onDisk)).toNat =
      loadLe (inodeToOnDisk csum inode onDisk) inodeSumOff 8 := by
    unfold inodeToOnDisk inodeOnDiskSum
    rw [loadLe_storeLe, slice_storeLe_apart (.inl (zero_add _).le)]
    exact (Nat.mod_eq_of_lt (UInt64.toNat_lt _)).symm
  have hfields : inodeFieldsAt (inodeToOnDisk csum inode onDisk) = inode := inodeFieldsAt_fill inode onDisk _
  unfold inodeParseOnDisk
  rw [if_neg (not_or.mpr ⟨not_not.mpr hsig1, not_not.mpr hsig2⟩), if_neg (not_not.mpr hsum), hfields, hsig1, hsig2]

/-! ### What is covered by the checksum -/

variable {csum} {m m' : Mem}

lemma sbFieldsAt_congr (h : ∀ i < headerSumOff, m i = m' i) : sbFieldsAt m = sbFieldsAt m' := by
  have hnum : ∀ off n, off + n ≤ 68 → loadBe m off n = loadBe m' off n := fun off n hle =>
    loadBe_congr fun i hi => h (off + i) (show off + i < 68 by omega)
  have hid : loadId m 8 = loadId m' 8 :=
    loadId_congr (slice_eq_iff.mpr fun i hi => h (8 + i) (show 8 + i < 68 by omega))
  unfold sbFieldsAt
  simp (disch := decide) only [hnum, hid]

lemma inodeFieldsAt_congr (h : ∀ i < inodeSumOff, m i = m' i) : inodeFieldsAt m = inodeFieldsAt m' := by
  have hnum : ∀ off n, off + n ≤ 44 → loadBe m off n = loadBe m' off n := fun off n hle =>
    loadBe_congr fun i hi => h (off + i) (show off + i < 44 by omega)
  have hino : loadId m 4 = loadId m' 4 :=
    loadId_congr (slice_eq_iff.mpr fun i hi => h (4 + i) (show 4 + i < 44 by omega))
  unfold inodeFieldsAt
  simp (disch := decide) only [hnum, hino]

lemma sbParseHeader_inv {r : SbFields} (h : sbParseHeader csum m = .ok r) : r = sbFieldsAt m := by
  unfold sbParseHeader at h
  split_ifs at h
  exact (Except.ok.inj h).symm

/-- An inode that is accepted has the two signatures. -/
lemma inodeParse_inv {r : ParsedInode} (h : inodeParseOnDisk csum m = .ok r) :
    r = { inodeFieldsAt m with sig1 := .ofNat inodeSig1, sig2 := .ofNat inodeSig2 } := by
  unfold inodeParseOnDisk at h
  split_ifs at h with hsig hsum
  obtain ⟨hsig1, hsig2⟩ := not_or.mp hsig
  rw [not_not.mp hsig1, not_not.mp hsig2] at h
  exact (Except.ok.inj h).symm

end

/-- **Round trips.** Both records are read as they were written, into whatever buffer, and what an accepted record
is read as depends on the bytes before its checksum only. -/
theorem records_round_trip (csum : List UInt8 → UInt64) :
    (∀ (sb : SbFields) (header : Mem), sbParseHeader csum (sbFillHeader csum sb header) = .ok sb) ∧
    (∀ (inode : InodeFields) (onDisk : Mem), ∃ r, inodeParseOnDisk csum (inodeToOnDisk csum inode onDisk) = .ok r ∧
      r.toInodeFields = inode) ∧
    (∀ (m m' : Mem) (r r' : SbFields), sbParseHeader csum m = .ok r → sbParseHeader csum m' = .ok r' →
      (∀ i < headerSumOff, m i = m' i) → r = r') ∧
    ∀ (m m' : Mem) (r r' : ParsedInode), inodeParseOnDisk csum m = .ok r → inodeParseOnDisk csum m' = .ok r' →
      (∀ i < inodeSumOff, m i = m' i) → r = r' := by
  refine ⟨sbParse_fill csum, fun inode onDisk => ⟨_, inodeParse_toOnDisk csum inode onDisk, rfl⟩, ?_, ?_⟩
  · intro m m' r r' h h' hagree
    rw [sbParseHeader_inv h, sbParseHeader_inv h', sbFieldsAt_congr hagree]
  · intro m m' r r' h h' hagree
    rw [inodeParse_inv h, inodeParse_inv h', inodeFieldsAt_congr hagree]

/-! ### The header of the superblock model -/

/-- The fields as numbers. -/
def SbFields.toHeader (f : SbFields) : HeaderFields where
  magic := f.magic.toNat
  version := f.version.toNat
  id := f.id
  size := f.size.toNat
  bmBlock := f.bmBlock.toNat
  bmBlocks := f.bmBlocks.toNat
  inodesTreeBlock := f.inodesTreeBlock.toNat
  usedBlocks := f.usedBlocks.toNat
  bsize := f.bsize.toNat

/-- The header in the bytes. -/
def imageHeaderAt (m : Mem) : ImageHeader where
  toHeaderFields := (sbFieldsAt m).toHeader
  sum := .ofNat (loadLe m headerSumOff 8)
  sig := loadBe m 76 4

/-- The bytes that the checksum covers. -/
def headerBytes (f : HeaderFields) : List UInt8 :=
  bytesBe 4 f.magic ++ bytesBe 4 f.version ++ slice (idMem f.id) 0 16 ++ bytesBe 8 f.size ++ bytesBe 8 f.bmBlock ++
    bytesBe 8 f.bmBlocks ++ bytesBe 8 f.inodesTreeBlock ++ bytesBe 8 f.usedBlocks ++ bytesBe 4 f.bsize

lemma toNat_loadBe4 (m : Mem) (off : ℕ) : (UInt32.ofNat (loadBe m off 4)).toNat = loadBe m off 4 :=
  UInt32.toNat_ofNat_of_lt' (loadBe_lt m off 4)

lemma toNat_loadBe8 (m : Mem) (off : ℕ) : (UInt64.ofNat (loadBe m off 8)).toNat = loadBe m off 8 :=
  UInt64.toNat_ofNat_of_lt' (loadBe_lt m off 8)

lemma slice_loadId (m : Mem) (off : ℕ) : slice (idMem (loadId m off)) 0 16 = slice m off 16 := by
  apply slice_eq_iff.mpr
  intro i hi
  simp [idMem, loadId, slice, hi]

lemma headerBytes_at (m : Mem) : headerBytes (sbFieldsAt m).toHeader = slice m 0 headerSumOff := by
  have hsplit : slice m 0 68 = slice m 0 4 ++ slice m 4 4 ++ slice m 8 16 ++ slice m 24 8 ++ slice m 32 8 ++
      slice m 40 8 ++ slice m 48 8 ++ slice m 56 8 ++ slice m 64 4 := by
    show slice m 0 (4 + 4 + 16 + 8 + 8 + 8 + 8 + 8 + 4) = _
    rw [slice_add, slice_add, slice_add, slice_add, slice_add, slice_add, slice_add, slice_add]
  unfold headerBytes SbFields.toHeader sbFieldsAt
  simp only [toNat_loadBe4, toNat_loadBe8, bytesBe_loadBe, slice_loadId]
  exact hsplit.symm

/-- **Refinement.** Reading the bytes is reading the header in them. -/
theorem parseHeader_refines (csum : List UInt8 → UInt64) (m : Mem) :
    (sbParseHeader csum m).map SbFields.toHeader =
      parseHeader (fun f => csum (headerBytes f)) (imageHeaderAt m) := by
  have hsum : loadLe m headerSumOff 8 ≠ (imageHeaderSum csum m).toNat ↔
      (imageHeaderAt m).sum ≠ csum (headerBytes (imageHeaderAt m).toHeaderFields) := by
    have hbytes : csum (headerBytes (imageHeaderAt m).toHeaderFields) = imageHeaderSum csum m :=
      congrArg csum (headerBytes_at m)
    rw [hbytes, ne_eq, ne_eq, ← UInt64.toNat_inj]
    have hnat : (imageHeaderAt m).sum.toNat = loadLe m headerSumOff 8 := UInt64.toNat_ofNat_of_lt' (loadLe_lt m _ 8)
    rw [hnat]
  have hsig : loadBe m 76 4 = (imageHeaderAt m).sig := rfl
  unfold sbParseHeader parseHeader
  simp only [hsum, hsig]
  split_ifs
  · rfl
  · rfl
  · rfl

end Nkfs.Records
