import Nkfs.Image.Const
import Nkfs.Lib.Bytes

/-!
# The B-tree node on disk

A node in memory is a header page, seven key pages, four child pages and four value pages
(`struct nkfs_btree_node`). `nkfs_btree_node_write` fills the header, checksums the in-memory form
and lays the pages out in a cluster at the offsets of `struct nkfs_btree_node_disk`;
`nkfs_btree_node_read` walks the same offsets back, tests the two signatures and the checksum.
Child and value slots are byte-swapped, key slots are copied.

The disk structure declares `keys[NKFS_BTREE_VALUE_PAGES]`, four key pages and not seven, while
both walks run over the seven pages of the memory structure. Key pages 4..6 and child pages 0..2
therefore share disk pages, and the children, written last, win.
`roundTrips_iff_sharedPagesAgree` says exactly which nodes survive: those whose last three key
pages already are the byte-swapped images of their first three child pages.

Offsets are those of the little-endian host the kernel module is built for; the checksum is an
arbitrary function of the bytes fed to it.
-/

namespace Nkfs.NodeFormat

open Lib.Bytes List

/-- `struct nkfs_btree_node`, the part of it that reaches the disk: the header fields kept outside
the pages, the header page and the key, child and value pages (by page index). -/
structure MemNode where
  /-- `leaf`. -/
  leaf : UInt32
  /-- `nr_keys`. -/
  nrKeys : UInt32
  /-- The page behind `header`. -/
  header : Mem
  /-- The pages behind `keys[]`. -/
  keys : ℕ → Mem
  /-- The pages behind `children[]`. -/
  children : ℕ → Mem
  /-- The pages behind `values[]`. -/
  values : ℕ → Mem

/-! ### Slots -/

/-- The bytes of key slot `index`: page `index * 16 / 4096` at offset `index * 16 & 4095`.
Source: `core/btree.c` `nkfs_btree_node_key` -/
def MemNode.key (n : MemNode) (index : ℕ) : List UInt8 :=
  slice (n.keys (index * 16 / pageSize)) (index * 16 % pageSize) 16

/-- The number in child slot `index`. Source: `core/btree.c` `nkfs_btree_node_child` -/
def MemNode.child (n : MemNode) (index : ℕ) : ℕ :=
  loadLe (n.children (index * 8 / pageSize)) (index * 8 % pageSize) 8

/-- The number in value slot `index`. Source: `core/btree.c` `nkfs_btree_node_value` -/
def MemNode.value (n : MemNode) (index : ℕ) : ℕ :=
  loadLe (n.values (index * 8 / pageSize)) (index * 8 % pageSize) 8

/-! ### `struct nkfs_btree_header_page` and `struct nkfs_btree_node_disk` -/

/-- Offset of `sig1` in the header page. -/
def sig1Off : ℕ := 0
/-- Offset of `leaf` in the header page. -/
def leafOff : ℕ := 4
/-- Offset of `nr_keys` in the header page. -/
def nrKeysOff : ℕ := 8
/-- Offset of `sum` in the header page, after `pad[4072]`. -/
def sumOff : ℕ := 4084
/-- Offset of `sig2` in the header page. -/
def sig2Off : ℕ := 4092

/-- The length of `keys[]` in `struct nkfs_btree_node_disk`, declared there as
`NKFS_BTREE_VALUE_PAGES`. -/
def diskKeyPages : ℕ := btreeValuePages

/-- Offset of `keys[i]` in the disk node. -/
def keysOff (i : ℕ) : ℕ := pageSize + pageSize * i
/-- Offset of `children[i]` in the disk node. -/
def childrenOff (i : ℕ) : ℕ := pageSize + pageSize * diskKeyPages + pageSize * i
/-- Offset of `values[i]` in the disk node. -/
def valuesOff (i : ℕ) : ℕ :=
  pageSize + pageSize * diskKeyPages + pageSize * btreeChildPages + pageSize * i

/-- The bytes at `dio_clu_map(clu, off)`. -/
def cluMap (c : Mem) (off : ℕ) : Mem := fun o => c (off + o)

/-! ### Pages to and from the disk form -/

/-- One 8-byte slot after the other, `dst[i] = cpu_to_be64(src[i])`.
Source: `core/btree.c` the loop of `nkfs_btree_node_child_page_to_ondisk` -/
def slotsToOndisk (dst src : Mem) : Mem :=
  (List.range 512).foldl (fun d i => storeBe d (8 * i) 8 (loadLe src (8 * i) 8)) dst

/-- One 8-byte slot after the other, `dst[i] = be64_to_cpu(src[i])`.
Source: `core/btree.c` the loop of `nkfs_btree_node_child_page_by_ondisk` -/
def slotsByOndisk (dst src : Mem) : Mem :=
  (List.range 512).foldl (fun d i => storeLe d (8 * i) 8 (loadBe src (8 * i) 8)) dst

/-- Source: `core/btree.c` `nkfs_btree_node_child_page_to_ondisk` -/
def childPageToOndisk (dst src : Mem) : Mem := slotsToOndisk dst src
/-- Source: `core/btree.c` `nkfs_btree_node_value_page_to_ondisk` -/
def valuePageToOndisk (dst src : Mem) : Mem := slotsToOndisk dst src
/-- Source: `core/btree.c` `nkfs_btree_node_child_page_by_ondisk` -/
def childPageByOndisk (dst src : Mem) : Mem := slotsByOndisk dst src
/-- Source: `core/btree.c` `nkfs_btree_node_value_page_by_ondisk` -/
def valuePageByOndisk (dst src : Mem) : Mem := slotsByOndisk dst src

/-- Copy the page, then rewrite the four header fields in big-endian order.
Source: `core/btree.c` `nkfs_btree_node_header_page_to_ondisk` -/
def headerPageToOndisk (dst src : Mem) : Mem :=
  let d := copyIn dst 0 src pageSize
  let d := storeBe d sig1Off 4 (loadLe src sig1Off 4)
  let d := storeBe d leafOff 4 (loadLe src leafOff 4)
  let d := storeBe d nrKeysOff 4 (loadLe src nrKeysOff 4)
  storeBe d sig2Off 4 (loadLe src sig2Off 4)

/-- Copy the page, then rewrite the four header fields in host order.
Source: `core/btree.c` `nkfs_btree_node_header_page_by_ondisk` -/
def headerPageByOndisk (dst src : Mem) : Mem :=
  let d := copyIn dst 0 src pageSize
  let d := storeLe d sig1Off 4 (loadBe src sig1Off 4)
  let d := storeLe d leafOff 4 (loadBe src leafOff 4)
  let d := storeLe d nrKeysOff 4 (loadBe src nrKeysOff 4)
  storeLe d sig2Off 4 (loadBe src sig2Off 4)

/-- Source: `core/btree.c` `nkfs_btree_node_key_page_copy` -/
def keyPageCopy (dst src : Mem) : Mem := copyIn dst 0 src pageSize

/-- Replace the page at `off` of the cluster by what `f` makes of it. -/
def updPage (c : Mem) (off : ℕ) (f : Mem → Mem) : Mem := copyIn c off (f (cluMap c off)) pageSize

/-- `for (i = 0; i < n; i++)` over the pages at `off i`. -/
def updPages (n : ℕ) (off : ℕ → ℕ) (f : ℕ → Mem → Mem) (c : Mem) : Mem :=
  (List.range n).foldl (fun c i => updPage c (off i) (f i)) c

/-- Lay the node out in the cluster: header, seven key pages, four child pages, four value pages,
in that order. Source: `core/btree.c` `nkfs_btree_node_to_ondisk` -/
def nodeToOndisk (n : MemNode) (c : Mem) : Mem :=
  let c := updPage c 0 fun dst => headerPageToOndisk dst n.header
  let c := updPages btreeKeyPages keysOff (fun i dst => keyPageCopy dst (n.keys i)) c
  let c := updPages btreeChildPages childrenOff
    (fun i dst => childPageToOndisk dst (n.children i)) c
  updPages btreeValuePages valuesOff (fun i dst => valuePageToOndisk dst (n.values i)) c

/-- Fill the pages of a freshly allocated (not zeroed) node from the cluster.
Source: `core/btree.c` `nkfs_btree_node_by_ondisk` -/
def nodeByOndisk (fresh : MemNode) (c : Mem) : MemNode :=
  { fresh with
    header := headerPageByOndisk fresh.header (cluMap c 0)
    keys := fun i => keyPageCopy (fresh.keys i) (cluMap c (keysOff i))
    children := fun i => childPageByOndisk (fresh.children i) (cluMap c (childrenOff i))
    values := fun i => valuePageByOndisk (fresh.values i) (cluMap c (valuesOff i)) }

lemma children_nodeByOndisk (fresh : MemNode) (c : Mem) (i : ℕ) : (nodeByOndisk fresh c).children i =
      slotsByOndisk (fresh.children i) (cluMap c (childrenOff i)) := by
  simp only [nodeByOndisk, childPageByOndisk]

lemma values_nodeByOndisk (fresh : MemNode) (c : Mem) (i : ℕ) : (nodeByOndisk fresh c).values i =
      slotsByOndisk (fresh.values i) (cluMap c (valuesOff i)) := by
  simp only [nodeByOndisk, valuePageByOndisk]

/-! ### Checksum, write and read -/

/-- The bytes of the first `n` pages of a page array, page after page. -/
def pagesBytes (f : ℕ → Mem) (n : ℕ) : List UInt8 :=
  (List.range n).flatMap fun i => slice (f i) 0 pageSize

/-- The bytes fed to the checksum: the header up to `sum`, then the key, child and value pages, in
their memory form. Source: `core/btree.c` `nkfs_btree_node_calc_sum` -/
def MemNode.sumBytes (n : MemNode) : List UInt8 :=
  slice n.header 0 sumOff ++ pagesBytes n.keys btreeKeyPages ++
    pagesBytes n.children btreeChildPages ++ pagesBytes n.values btreeValuePages

lemma MemNode.sumBytes_setFields (n : MemNode) (leaf nrKeys : UInt32) :
    { n with leaf := leaf, nrKeys := nrKeys }.sumBytes = n.sumBytes := rfl

/-- `header->sig1 = ..; header->sig2 = ..; header->leaf = ..; header->nr_keys = ..`, then the sum
into `header->sum`. -/
def fillHeader (csum : List UInt8 → UInt64) (n : MemNode) : MemNode :=
  let h := storeLe n.header sig1Off 4 btreeSig1
  let h := storeLe h sig2Off 4 btreeSig2
  let h := storeLe h leafOff 4 n.leaf.toNat
  let h := storeLe h nrKeysOff 4 n.nrKeys.toNat
  { n with header := storeLe h sumOff 8 (csum { n with header := h }.sumBytes).toNat }

/-- The cluster after a successful write of `n` over the cluster contents `c`.
Source: `core/btree.c` `nkfs_btree_node_write` -/
def nodeWrite (csum : List UInt8 → UInt64) (n : MemNode) (c : Mem) : Mem :=
  nodeToOndisk (fillHeader csum n) c

/-- Read a node that is not in the node cache, `none` where the C function returns `NULL`.
`fresh` is the freshly allocated node. Source: `core/btree.c` `nkfs_btree_node_read` -/
def nodeRead (csum : List UInt8 → UInt64) (fresh : MemNode) (c : Mem) : Option MemNode :=
  let n := nodeByOndisk fresh c
  let n := { n with
    leaf := UInt32.ofNat (loadLe n.header leafOff 4)
    nrKeys := UInt32.ofNat (loadLe n.header nrKeysOff 4) }
  if loadLe n.header sig1Off 4 ≠ btreeSig1 ∨ loadLe n.header sig2Off 4 ≠ btreeSig2 then none
  else if (csum n.sumBytes).toNat ≠ loadLe n.header sumOff 8 then none
  else some n

/-! ### The property -/

/-- Writing `n` over `c` and reading it back succeeds and restores the leaf flag, the number of
keys and every live slot (the child slots are live in interior nodes). -/
def RoundTrips (csum : List UInt8 → UInt64) (n fresh : MemNode) (c : Mem) : Prop :=
  ∃ n', nodeRead csum fresh (nodeWrite csum n c) = some n' ∧
    n'.leaf = n.leaf ∧ n'.nrKeys = n.nrKeys ∧
    (∀ i < n.nrKeys.toNat, n'.key i = n.key i ∧ n'.value i = n.value i) ∧
    (n.leaf = 0 → ∀ i ≤ n.nrKeys.toNat, n'.child i = n.child i)

/-- Key pages 4..6 are, byte for byte, the big-endian images of child pages 0..2, the pages they
share the disk with. -/
def SharedPagesAgree (n : MemNode) : Prop :=
  ∀ i < 3, ∀ o < pageSize, n.keys (4 + i) o = n.children i (8 * (o / 8) + (7 - o % 8))

/-! ### Byte-swapped pages -/

/-- After `n` slots the first `8 * n` bytes are swapped in groups of eight. -/
lemma foldl_slotsToOndisk (dst src : Mem) (o : ℕ) : ∀ n,
    (range n).foldl (fun d i => storeBe d (8 * i) 8 (loadLe src (8 * i) 8)) dst o =
      if o < 8 * n then src (8 * (o / 8) + (7 - o % 8)) else dst o
  | 0 => by simp
  | n + 1 => by
    rw [range_succ, foldl_append, foldl_cons, foldl_nil]
    rcases Nat.lt_or_ge o (8 * n) with hlt | hge
    · rw [storeBe_of_lt hlt, foldl_slotsToOndisk dst src o n, if_pos hlt, if_pos (by omega)]
    · rcases Nat.lt_or_ge o (8 * n + 8) with hin | hout
      · obtain ⟨i, rfl⟩ : ∃ i, o = 8 * n + i := ⟨o - 8 * n, by omega⟩
        rw [storeBe_loadLe_add (by omega), if_pos (by omega)]
        congr 1
        omega
      · rw [storeBe_of_ge hout, foldl_slotsToOndisk dst src o n, if_neg (by omega), if_neg (by omega)]

lemma slotsToOndisk_apply (dst src : Mem) {o : ℕ} (h : o < pageSize) :
    slotsToOndisk dst src o = src (8 * (o / 8) + (7 - o % 8)) := by
  rw [slotsToOndisk, foldl_slotsToOndisk, if_pos (by simpa [pageSize] using h)]

lemma slotsByOndisk_apply (dst src : Mem) {o : ℕ} (h : o < pageSize) :
    slotsByOndisk dst src o = src (8 * (o / 8) + (7 - o % 8)) := by
  have heq : slotsByOndisk dst src = slotsToOndisk dst src := by
    unfold slotsByOndisk slotsToOndisk
    simp only [storeLe_loadBe]
  rw [heq, slotsToOndisk_apply dst src h]

attribute [irreducible] slotsToOndisk slotsByOndisk

/-- The header page on disk: the four fields are swapped in groups of four, the rest is copied. -/
lemma headerPageToOndisk_apply (dst src : Mem) {o : ℕ} (h : o < pageSize) : headerPageToOndisk dst src o =
      if o < 12 ∨ 4092 ≤ o then src (4 * (o / 4) + (3 - o % 4)) else src o := by
  have hfield : ∀ (d : Mem) (off : ℕ), storeBe d off 4 (loadLe src off 4) o =
      if off ≤ o ∧ o < off + 4 then src (off + (3 - (o - off))) else d o := by
    intro d off
    split_ifs with hin
    · obtain ⟨i, rfl⟩ : ∃ i, o = off + i := ⟨o - off, by omega⟩
      rw [storeBe_loadLe_add (by omega), Nat.add_sub_cancel_left]
    · rw [storeBe, if_neg hin]
  have hcopy : copyIn dst 0 src pageSize o = src o := copyIn_zero dst src h
  simp only [headerPageToOndisk, hfield, hcopy, sig1Off, leafOff, nrKeysOff, sig2Off]
  unfold pageSize at h
  split_ifs <;> first | omega | exact congrArg src (by omega)

lemma headerPageByOndisk_apply (dst src : Mem) {o : ℕ} (h : o < pageSize) : headerPageByOndisk dst src o =
      if o < 12 ∨ 4092 ≤ o then src (4 * (o / 4) + (3 - o % 4)) else src o := by
  simp only [headerPageByOndisk, storeLe_loadBe]
  exact headerPageToOndisk_apply dst src h

/-- The header page survives the way to the disk and back. -/
lemma headerPageByOndisk_toOndisk (dst dst' src pg : Mem)
    (hpg : ∀ o < pageSize, pg o = headerPageToOndisk dst src o) {o : ℕ} (h : o < pageSize) :
    headerPageByOndisk dst' pg o = src o := by
  rw [headerPageByOndisk_apply _ _ h]
  unfold pageSize at h hpg
  split_ifs with ho
  · rw [hpg _ (by omega), headerPageToOndisk_apply _ _ (by unfold pageSize; omega), if_pos (by omega)]
    congr 1
    omega
  · rw [hpg _ h, headerPageToOndisk_apply _ _ (by unfold pageSize; omega), if_neg ho]

/-! ### The layout of the cluster -/

section layout

variable {c : Mem} {f : Mem → Mem} {off off' o : ℕ}

lemma cluMap_updPage_self (h : o < pageSize) :
    cluMap (updPage c off f) off o = f (cluMap c off) o := copyIn_add h

lemma cluMap_updPage_of_disjoint (hd : off + pageSize ≤ off' ∨ off' + pageSize ≤ off)
    (h : o < pageSize) : cluMap (updPage c off f) off' o = cluMap c off' o := by
  rcases hd with hd | hd
  · exact copyIn_of_ge (by omega)
  · exact copyIn_of_lt (by omega)

lemma cluMap_updPages_of_disjoint {offs : ℕ → ℕ} {g : ℕ → Mem → Mem} (h : o < pageSize) :
    ∀ {n : ℕ}, (∀ i < n, offs i + pageSize ≤ off' ∨ off' + pageSize ≤ offs i) →
      cluMap (updPages n offs g c) off' o = cluMap c off' o
  | 0, _ => rfl
  | n + 1, hd => by
    rw [updPages, range_succ, foldl_append, foldl_cons, foldl_nil,
      cluMap_updPage_of_disjoint (hd n (by omega)) h]
    exact cluMap_updPages_of_disjoint h fun i hi => hd i (by omega)

/-- A page of a loop over disjoint pages holds what its own step wrote. -/
lemma cluMap_updPages_self (offs : ℕ → ℕ) (g : ℕ → Mem → Mem) (h : o < pageSize) {j : ℕ} : ∀ {n : ℕ}, j < n →
      (∀ i < n, i ≠ j → offs i + pageSize ≤ offs j ∨ offs j + pageSize ≤ offs i) →
      ∃ dst, cluMap (updPages n offs g c) (offs j) o = g j dst o
  | n + 1, hj, hd => by
    rw [updPages, range_succ, foldl_append, foldl_cons, foldl_nil]
    by_cases hjn : n = j
    · subst hjn
      exact ⟨_, cluMap_updPage_self h⟩
    · rw [cluMap_updPage_of_disjoint (hd n (by omega) hjn) h]
      exact cluMap_updPages_self offs g h (by omega) fun i hi => hd i (by omega)

end layout

section ondisk

variable (n : MemNode) (c : Mem) {i o : ℕ}

lemma header_nodeToOndisk (h : o < pageSize) :
    cluMap (nodeToOndisk n c) 0 o = headerPageToOndisk (cluMap c 0) n.header o := by
  unfold nodeToOndisk
  dsimp only
  rw [cluMap_updPages_of_disjoint h, cluMap_updPages_of_disjoint h, cluMap_updPages_of_disjoint h,
    cluMap_updPage_self h]
  · intro i _; right; unfold keysOff; omega
  · intro i _; right; unfold childrenOff; omega
  · intro i _; right; unfold valuesOff; omega

lemma values_nodeToOndisk (hi : i < btreeValuePages) (h : o < pageSize) :
    cluMap (nodeToOndisk n c) (valuesOff i) o = n.values i (8 * (o / 8) + (7 - o % 8)) := by
  unfold nodeToOndisk
  dsimp only
  obtain ⟨dst, hdst⟩ := cluMap_updPages_self valuesOff
    (fun i dst => valuePageToOndisk dst (n.values i)) h hi
    (c := updPages btreeChildPages childrenOff (fun i dst => childPageToOndisk dst (n.children i))
      (updPages btreeKeyPages keysOff (fun i dst => keyPageCopy dst (n.keys i))
        (updPage c 0 fun dst => headerPageToOndisk dst n.header)))
    (fun k _ hk => by unfold valuesOff pageSize; omega)
  rw [hdst]
  exact slotsToOndisk_apply _ _ h

lemma children_nodeToOndisk (hi : i < btreeChildPages) (h : o < pageSize) :
    cluMap (nodeToOndisk n c) (childrenOff i) o = n.children i (8 * (o / 8) + (7 - o % 8)) := by
  unfold nodeToOndisk
  dsimp only
  rw [cluMap_updPages_of_disjoint h]
  · obtain ⟨dst, hdst⟩ := cluMap_updPages_self childrenOff
      (fun i dst => childPageToOndisk dst (n.children i)) h hi
      (c := updPages btreeKeyPages keysOff (fun i dst => keyPageCopy dst (n.keys i))
        (updPage c 0 fun dst => headerPageToOndisk dst n.header))
      (fun k _ hk => by unfold childrenOff pageSize; omega)
    rw [hdst]
    exact slotsToOndisk_apply _ _ h
  · intro k _
    right
    unfold btreeChildPages at hi
    unfold childrenOff valuesOff pageSize btreeChildPages
    omega

lemma keys_nodeToOndisk (hi : i < diskKeyPages) (h : o < pageSize) :
    cluMap (nodeToOndisk n c) (keysOff i) o = n.keys i o := by
  unfold diskKeyPages btreeValuePages at hi
  unfold nodeToOndisk
  dsimp only
  rw [cluMap_updPages_of_disjoint h, cluMap_updPages_of_disjoint h]
  · obtain ⟨dst, hdst⟩ := cluMap_updPages_self keysOff (fun i dst => keyPageCopy dst (n.keys i)) (j := i)
      (n := btreeKeyPages) h (by unfold btreeKeyPages; omega)
      (c := updPage c 0 fun dst => headerPageToOndisk dst n.header)
      (fun k _ hk => by unfold keysOff pageSize; omega)
    rw [hdst]
    exact copyIn_zero dst (n.keys i) h
  · intro k _
    right
    unfold keysOff childrenOff pageSize diskKeyPages btreeValuePages
    omega
  · intro k _
    right
    unfold keysOff valuesOff pageSize diskKeyPages btreeValuePages
    omega

/-- The disk page of key page `4 + i` is the disk page of child page `i`. -/
lemma keysOff_four_add (i : ℕ) : keysOff (4 + i) = childrenOff i := by
  unfold keysOff childrenOff pageSize diskKeyPages btreeValuePages
  omega

end ondisk

/-! ### What is read back -/

lemma pagesBytes_length (f : ℕ → Mem) : ∀ n, (pagesBytes f n).length = n * pageSize
  | 0 => by simp [pagesBytes]
  | n + 1 => by
    have ih := pagesBytes_length f n
    rw [pagesBytes] at ih ⊢
    rw [range_succ, flatMap_append, length_append, ih]
    simp [Nat.succ_mul]

lemma pagesBytes_eq_iff {f g : ℕ → Mem} : ∀ {n : ℕ},
    pagesBytes f n = pagesBytes g n ↔ ∀ i < n, ∀ o < pageSize, f i o = g i o
  | 0 => by simp [pagesBytes]
  | n + 1 => by
    have hsucc : ∀ e : ℕ → Mem, pagesBytes e (n + 1) = pagesBytes e n ++ slice (e n) 0 pageSize := fun e => by
      simp [pagesBytes, range_succ]
    rw [hsucc, hsucc]
    constructor
    · intro h i hi o ho
      obtain ⟨hpages, hlast⟩ := append_inj' h (by simp)
      rcases Nat.lt_succ_iff_lt_or_eq.mp hi with hlt | rfl
      · exact pagesBytes_eq_iff.mp hpages i hlt o ho
      · simpa using slice_eq_iff.mp hlast o ho
    · intro h
      rw [pagesBytes_eq_iff.mpr fun i hi => h i (by omega), slice_zero_congr fun o ho => h n (by omega) o ho]

/-- Two nodes feed the same bytes to the checksum iff they agree on the header up to `sum` and on
every page. -/
lemma sumBytes_eq_iff {n n' : MemNode} : n.sumBytes = n'.sumBytes ↔ (∀ o < sumOff, n.header o = n'.header o) ∧
      (∀ i < btreeKeyPages, ∀ o < pageSize, n.keys i o = n'.keys i o) ∧
      (∀ i < btreeChildPages, ∀ o < pageSize, n.children i o = n'.children i o) ∧
      (∀ i < btreeValuePages, ∀ o < pageSize, n.values i o = n'.values i o) := by
  unfold MemNode.sumBytes
  constructor
  · intro h
    obtain ⟨h, hvalues⟩ := append_inj' h (by simp [pagesBytes_length])
    obtain ⟨h, hchildren⟩ := append_inj' h (by simp [pagesBytes_length])
    obtain ⟨hheader, hkeys⟩ := append_inj' h (by simp [pagesBytes_length])
    exact ⟨fun o ho => by simpa using slice_eq_iff.mp hheader o ho, pagesBytes_eq_iff.mp hkeys,
      pagesBytes_eq_iff.mp hchildren, pagesBytes_eq_iff.mp hvalues⟩
  · rintro ⟨hheader, hkeys, hchildren, hvalues⟩
    have hslice : slice n.header 0 sumOff = slice n'.header 0 sumOff :=
      slice_eq_iff.mpr fun o ho => by simpa using hheader o ho
    rw [hslice, pagesBytes_eq_iff.mpr hkeys, pagesBytes_eq_iff.mpr hchildren, pagesBytes_eq_iff.mpr hvalues]

section readback

variable (csum : List UInt8 → UInt64) (n fresh : MemNode) (c : Mem) {i o : ℕ}

/-- The node whose bytes `nkfs_btree_node_write` checksums: `n` with its header fields filled. -/
def summed (n : MemNode) : MemNode :=
  { n with header := storeLe (storeLe (storeLe (storeLe n.header sig1Off 4 btreeSig1)
      sig2Off 4 btreeSig2) leafOff 4 n.leaf.toNat) nrKeysOff 4 n.nrKeys.toNat }

lemma fillHeader_eq : fillHeader csum n =
      { n with header := storeLe (summed n).header sumOff 8 (csum (summed n).sumBytes).toNat } :=
  rfl

/-- The stored sum lies outside the bytes that are summed. -/
lemma sumBytes_fillHeader : (fillHeader csum n).sumBytes = (summed n).sumBytes := by
  rw [fillHeader_eq, sumBytes_eq_iff]
  refine ⟨fun o ho => storeLe_of_lt ho, ?_, ?_, ?_⟩ <;> intros <;> rfl

lemma header_readback (h : o < pageSize) :
    (nodeByOndisk fresh (nodeWrite csum n c)).header o = (fillHeader csum n).header o :=
  headerPageByOndisk_toOndisk (cluMap c 0) _ _ _ (fun _ ho => header_nodeToOndisk (fillHeader csum n) c ho) h

lemma keys_readback (hi : i < diskKeyPages) (h : o < pageSize) :
    (nodeByOndisk fresh (nodeWrite csum n c)).keys i o = n.keys i o := by
  have hcopy : (nodeByOndisk fresh (nodeWrite csum n c)).keys i o =
      cluMap (nodeWrite csum n c) (keysOff i) o := copyIn_zero _ _ h
  rw [hcopy]
  exact keys_nodeToOndisk (fillHeader csum n) c hi h

/-- Key page `4 + i` comes back as the disk image of child page `i`. -/
lemma keys_readback_shared (hi : i < 3) (h : o < pageSize) :
    (nodeByOndisk fresh (nodeWrite csum n c)).keys (4 + i) o = n.children i (8 * (o / 8) + (7 - o % 8)) := by
  have hcopy : (nodeByOndisk fresh (nodeWrite csum n c)).keys (4 + i) o =
      cluMap (nodeWrite csum n c) (keysOff (4 + i)) o := copyIn_zero _ _ h
  rw [hcopy, keysOff_four_add]
  exact children_nodeToOndisk (fillHeader csum n) c (by unfold btreeChildPages; omega) h

lemma swap_lt {o : ℕ} (h : o < pageSize) : 8 * (o / 8) + (7 - o % 8) < pageSize := by
  unfold pageSize at h ⊢
  omega

lemma swap_swap (o : ℕ) :
    8 * ((8 * (o / 8) + (7 - o % 8)) / 8) + (7 - (8 * (o / 8) + (7 - o % 8)) % 8) = o := by
  omega

lemma children_readback (hi : i < btreeChildPages) (h : o < pageSize) :
    (nodeByOndisk fresh (nodeWrite csum n c)).children i o = n.children i o := by
  rw [children_nodeByOndisk]
  calc slotsByOndisk (fresh.children i) (cluMap (nodeWrite csum n c) (childrenOff i)) o
      = cluMap (nodeWrite csum n c) (childrenOff i) (8 * (o / 8) + (7 - o % 8)) :=
        slotsByOndisk_apply _ _ h
    _ = n.children i _ := children_nodeToOndisk (fillHeader csum n) c hi (swap_lt h)
    _ = n.children i o := by rw [swap_swap]

lemma values_readback (hi : i < btreeValuePages) (h : o < pageSize) :
    (nodeByOndisk fresh (nodeWrite csum n c)).values i o = n.values i o := by
  rw [values_nodeByOndisk]
  calc slotsByOndisk (fresh.values i) (cluMap (nodeWrite csum n c) (valuesOff i)) o
      = cluMap (nodeWrite csum n c) (valuesOff i) (8 * (o / 8) + (7 - o % 8)) :=
        slotsByOndisk_apply _ _ h
    _ = n.values i _ := values_nodeToOndisk (fillHeader csum n) c hi (swap_lt h)
    _ = n.values i o := by rw [swap_swap]

/-- The bytes summed on the read side are those summed on the write side exactly when the shared
pages agree. -/
lemma sumBytes_readback_iff : (nodeByOndisk fresh (nodeWrite csum n c)).sumBytes = (summed n).sumBytes ↔
      SharedPagesAgree n := by
  rw [← sumBytes_fillHeader csum n, sumBytes_eq_iff]
  constructor
  · rintro ⟨-, hkeys, -, -⟩ i hi o ho
    rw [← keys_readback_shared csum n fresh c hi ho]
    exact (hkeys (4 + i) (by unfold btreeKeyPages; omega) o ho).symm
  · intro hagree
    refine ⟨fun o ho => header_readback csum n fresh c ?_, fun i hi o ho => ?_,
      fun i hi o ho => children_readback csum n fresh c hi ho,
      fun i hi o ho => values_readback csum n fresh c hi ho⟩
    · unfold sumOff at ho
      unfold pageSize
      omega
    · rcases Nat.lt_or_ge i diskKeyPages with hlt | hge
      · exact keys_readback csum n fresh c hlt ho
      · obtain ⟨j, rfl⟩ : ∃ j, i = 4 + j := ⟨i - 4, by
          unfold diskKeyPages btreeValuePages at hge; omega⟩
        have hj : j < 3 := by unfold btreeKeyPages at hi; omega
        rw [keys_readback_shared csum n fresh c hj ho]
        exact (hagree j hj o ho).symm

/-- A header field of four bytes comes back as it was filled in. -/
lemma loadLe_header_readback {off w : ℕ} (hoff : off + w ≤ pageSize) :
    loadLe (nodeByOndisk fresh (nodeWrite csum n c)).header off w = loadLe (fillHeader csum n).header off w :=
  loadLe_congr fun i hi => header_readback csum n fresh c (by omega)

lemma loadLe_fillHeader_of_lt {off : ℕ} (hoff : off + 4 ≤ sumOff ∨ sumOff + 8 ≤ off) :
    loadLe (fillHeader csum n).header off 4 = loadLe (summed n).header off 4 := by
  apply loadLe_congr
  intro i hi
  rw [fillHeader_eq]
  rcases hoff with h | h
  · exact storeLe_of_lt (by omega)
  · exact storeLe_of_ge (by omega)

lemma loadLe_summed_sig1 : loadLe (summed n).header sig1Off 4 = btreeSig1 := by
  unfold summed sig1Off leafOff nrKeysOff sig2Off
  rw [loadLe_storeLe_of_disjoint (by omega), loadLe_storeLe_of_disjoint (by omega),
    loadLe_storeLe_of_disjoint (by omega), loadLe_storeLe]
  rfl

lemma loadLe_summed_sig2 : loadLe (summed n).header sig2Off 4 = btreeSig2 := by
  unfold summed sig1Off leafOff nrKeysOff sig2Off
  rw [loadLe_storeLe_of_disjoint (by omega), loadLe_storeLe_of_disjoint (by omega), loadLe_storeLe]
  rfl

lemma loadLe_summed_leaf : loadLe (summed n).header leafOff 4 = n.leaf.toNat := by
  unfold summed sig1Off leafOff nrKeysOff sig2Off
  rw [loadLe_storeLe_of_disjoint (by omega), loadLe_storeLe]
  exact Nat.mod_eq_of_lt n.leaf.toNat_lt

lemma loadLe_summed_nrKeys : loadLe (summed n).header nrKeysOff 4 = n.nrKeys.toNat := by
  unfold summed sig1Off leafOff nrKeysOff sig2Off
  rw [loadLe_storeLe]
  exact Nat.mod_eq_of_lt n.nrKeys.toNat_lt

lemma loadLe_fillHeader_sum :
    loadLe (fillHeader csum n).header sumOff 8 = (csum (summed n).sumBytes).toNat := by
  rw [fillHeader_eq]
  exact (loadLe_storeLe _ _ _ _).trans (Nat.mod_eq_of_lt (csum _).toNat_lt)

/-- Reading back what was written: the signatures always match, the checksum decides. -/
lemma nodeRead_nodeWrite : nodeRead csum fresh (nodeWrite csum n c) =
      if csum (nodeByOndisk fresh (nodeWrite csum n c)).sumBytes = csum (summed n).sumBytes then
        some { nodeByOndisk fresh (nodeWrite csum n c) with leaf := n.leaf, nrKeys := n.nrKeys }
      else none := by
  have hfield : ∀ off, off + 4 ≤ sumOff ∨ sumOff + 8 ≤ off → off + 4 ≤ pageSize →
      loadLe (nodeByOndisk fresh (nodeWrite csum n c)).header off 4 =
        loadLe (summed n).header off 4 := fun off hd hp =>
    (loadLe_header_readback csum n fresh c hp).trans (loadLe_fillHeader_of_lt csum n hd)
  have hsum : loadLe (nodeByOndisk fresh (nodeWrite csum n c)).header sumOff 8 =
      (csum (summed n).sumBytes).toNat :=
    (loadLe_header_readback csum n fresh c (by unfold sumOff pageSize; omega)).trans
      (loadLe_fillHeader_sum csum n)
  have hsig1 := (hfield sig1Off (by decide) (by decide)).trans (loadLe_summed_sig1 n)
  have hsig2 := (hfield sig2Off (by decide) (by decide)).trans (loadLe_summed_sig2 n)
  have hleaf := (hfield leafOff (by decide) (by decide)).trans (loadLe_summed_leaf n)
  have hnr := (hfield nrKeysOff (by decide) (by decide)).trans (loadLe_summed_nrKeys n)
  unfold nodeRead
  simp only [hsig1, hsig2, hleaf, hnr, hsum, UInt32.ofNat_toNat, MemNode.sumBytes_setFields]
  rw [if_neg (by simp)]
  by_cases heq : csum (nodeByOndisk fresh (nodeWrite csum n c)).sumBytes = csum (summed n).sumBytes
  · rw [if_pos heq, if_neg (not_not.mpr (congrArg UInt64.toNat heq))]
  · rw [if_neg heq, if_pos]
    intro h
    exact heq (UInt64.toNat_inj.mp h)

end readback

/-! ### Which nodes survive -/

lemma slice_congr_page {p q : Mem} {off w : ℕ} (hpq : ∀ o < pageSize, p o = q o)
    (hoff : off + w ≤ pageSize) : slice p off w = slice q off w :=
  slice_eq_iff.mpr fun i hi => hpq (off + i) (by omega)

lemma loadLe_congr_page {p q : Mem} {off w : ℕ} (hpq : ∀ o < pageSize, p o = q o)
    (hoff : off + w ≤ pageSize) : loadLe p off w = loadLe q off w :=
  loadLe_congr fun i hi => hpq (off + i) (by omega)

/-- A node whose shared pages agree survives, whatever the checksum function. -/
lemma roundTrips_of_sharedPagesAgree (csum : List UInt8 → UInt64) (n fresh : MemNode) (c : Mem)
    (hnr : n.nrKeys.toNat ≤ 2 * btreeT - 1) (hagree : SharedPagesAgree n) :
    RoundTrips csum n fresh c := by
  have hbytes := (sumBytes_readback_iff csum n fresh c).mpr hagree
  have hkeys : ∀ i < btreeKeyPages, ∀ o < pageSize,
      (nodeByOndisk fresh (nodeWrite csum n c)).keys i o = n.keys i o :=
    (sumBytes_eq_iff.mp hbytes).2.1
  unfold btreeT at hnr
  refine ⟨_, (nodeRead_nodeWrite csum n fresh c).trans (if_pos (congrArg csum hbytes)), rfl, rfl,
    fun i hi => ⟨?_, ?_⟩, fun _ i hi => ?_⟩
  · exact slice_congr_page (hkeys (i * 16 / pageSize) (by unfold btreeKeyPages pageSize; omega))
      (by unfold pageSize; omega)
  · exact loadLe_congr_page
      (fun o => values_readback csum n fresh c (by unfold btreeValuePages pageSize; omega))
      (by unfold pageSize; omega)
  · exact loadLe_congr_page
      (fun o => children_readback csum n fresh c (by unfold btreeChildPages pageSize; omega))
      (by unfold pageSize; omega)

/-- A checksum that tells the summed bytes from all others rejects every node whose shared pages
differ. -/
lemma sharedPagesAgree_of_roundTrips (n fresh : MemNode) (c : Mem)
    (h : ∀ csum, RoundTrips csum n fresh c) : SharedPagesAgree n := by
  let csum : List UInt8 → UInt64 := fun l => if l = (summed n).sumBytes then 0 else 1
  obtain ⟨n', hread, -⟩ := h csum
  rw [nodeRead_nodeWrite] at hread
  rw [← sumBytes_readback_iff csum n fresh c]
  by_contra hne
  have hsum : csum (nodeByOndisk fresh (nodeWrite csum n c)).sumBytes ≠ csum (summed n).sumBytes := by
    simp [csum, hne]
  rw [if_neg hsum] at hread
  exact absurd hread (by simp)

/-- **Which nodes the disk format carries.** Writing a node and reading it back restores its leaf
flag, its number of keys and every live slot, for every checksum function, if and only if its key
pages 4..6 equal the disk images of its child pages 0..2. -/
theorem roundTrips_iff_sharedPagesAgree (n fresh : MemNode) (c : Mem)
    (hnr : n.nrKeys.toNat ≤ 2 * btreeT - 1) :
    (∀ csum, RoundTrips csum n fresh c) ↔ SharedPagesAgree n :=
  ⟨sharedPagesAgree_of_roundTrips n fresh c,
    fun hagree csum => roundTrips_of_sharedPagesAgree csum n fresh c hnr hagree⟩

/-- A node as `nkfs_btree_node_alloc(1)` leaves it, turned into an empty leaf. -/
def emptyLeaf : MemNode where
  leaf := 1
  nrKeys := 0
  header := fun _ => 0
  keys := fun _ _ => 0
  children := fun _ _ => 0
  values := fun _ _ => 0

/-- The empty leaf survives. -/
theorem roundTrips_emptyLeaf : RoundTrips (fun _ => 0) emptyLeaf emptyLeaf fun _ => 0 :=
  (roundTrips_iff_sharedPagesAgree emptyLeaf emptyLeaf (fun _ => 0) (by decide)).mpr
    (fun _ _ _ _ => rfl) _

/-- An interior root with one key and the children 5 and 6, as the first root split makes it. -/
def splitRoot : MemNode :=
  { emptyLeaf with
    leaf := 0
    nrKeys := 1
    children := fun p o => if p = 0 ∧ o = 0 then 5 else if p = 0 ∧ o = 8 then 6 else 0 }

/-- The interior root does not survive: with some checksum function it cannot be read back. -/
theorem not_forall_roundTrips :
    ¬ ∀ (csum : List UInt8 → UInt64) (n fresh : MemNode) (c : Mem),
      n.nrKeys.toNat ≤ 2 * btreeT - 1 → RoundTrips csum n fresh c := by
  intro h
  have hagree := sharedPagesAgree_of_roundTrips splitRoot emptyLeaf (fun _ => 0)
    fun csum => h csum splitRoot emptyLeaf (fun _ => 0) (by decide)
  exact absurd (hagree 0 (by omega) 7 (by decide)) (by decide)

end Nkfs.NodeFormat
