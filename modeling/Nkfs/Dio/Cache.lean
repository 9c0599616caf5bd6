import Nkfs.Image.Const
import Nkfs.Lib.Assoc
import Nkfs.Lib.Bytes
import Nkfs.Lib.Program

/-!
# The cluster cache (`core/dio.c`)

A device caches its clusters in a radix tree by index, at most one for each index. A cached cluster
has a reference from its allocation and one from the tree; every `dio_clu_get` adds a reference and a
pin. `dio_clus_lru_frees` takes the unpinned clusters in the order of their ages out of the tree until
the limit is met, writing each one back.

The functions run one at a time; device and memory do not fail. Clusters are objects with a number;
using one that was freed is a fault. The radix tree is its list of pairs in the order of their
indices; `sort` is the kernel's sort of the clusters by age. Locks are left out here.
-/

namespace Nkfs

open Lib.Assoc Lib.Bytes Lib.Program

/-- How a run can go wrong. -/
inductive DioFault where
  /-- An `NKFS_BUG_ON` fired. -/
  | bug
  /-- A freed cluster was used. -/
  | freed
  /-- A wait or a loop without end. -/
  | hang
  deriving DecidableEq, Repr

/-- The pages are one memory, page `i` from `i * PAGE_SIZE` on.
Source: `core/dio.h` `struct dio_cluster` -/
structure Clu where
  ref : ℕ
  pin : ℤ
  index : ℕ
  /-- `DIO_CLU_DIRTY` -/
  dirty : Bool
  /-- `DIO_CLU_READ` -/
  read : Bool
  /-- `DIO_CLU_READ_START` -/
  readStart : Bool
  pages : Mem
  age : UInt64

/-- `disk` are the contents of the device by cluster, `clus` the clusters in memory and `next` the number
of the next one. Source: `core/dio.h` `struct dio_dev` -/
structure Dev where
  nrPages : ℕ
  nrMaxClus : ℕ
  nrClus : ℕ
  root : List (ℕ × ℕ)
  clus : ℕ → Option Clu
  next : ℕ
  disk : ℕ → Mem

/-- Functions on a device. -/
abbrev D := Prog Dev DioFault

def Dev.cluSize (d : Dev) : ℕ := d.nrPages * pageSize

/-- The cluster `id` set to `c`. -/
def Dev.setClu (d : Dev) (id : ℕ) (c : Clu) : Dev := { d with clus := Function.update d.clus id (some c) }

/-- The cluster `id`. -/
def cluOf (id : ℕ) : D Clu := do
  let d ← get
  match d.clus id with
  | none => stop .freed
  | some c => return c

def setClu (id : ℕ) (c : Clu) : D Unit := modify fun d => d.setClu id c

/-! ### Pages -/

/-- The loop of `dio_pages_io`, with the pages and the buffer. -/
def pagesIoLoop (nrPages : ℕ) (write : Bool) : ℕ → ℕ → ℕ → ℕ → ℕ → Mem → Mem → Except DioFault (Mem × Mem)
  | 0, _, _, _, _, _, _ => .error .hang
  | fuel + 1, pgIdx, pgOff, read, len, pages, buf =>
    if read < len then
      if pgIdx ≥ nrPages then .error .bug
      else
        let step := if len - read > pageSize - pgOff then pageSize - pgOff else len - read
        let addr := pgIdx * pageSize + pgOff
        if write then
          pagesIoLoop nrPages write fuel (pgIdx + 1) 0 (read + step) len
            (copyIn pages addr (fun i => buf (read + i)) step) buf
        else
          pagesIoLoop nrPages write fuel (pgIdx + 1) 0 (read + step) len pages
            (copyIn buf read (fun i => pages (addr + i)) step)
    else .ok (pages, buf)

/-- Every round moves at least one byte. Source: `core/dio.c` `dio_pages_io` -/
def dioPagesIo (nrPages : ℕ) (write : Bool) (pages buf : Mem) (off len : ℕ) : Except DioFault (Mem × Mem) :=
  if off + len > nrPages * pageSize then .error .bug
  else pagesIoLoop nrPages write (len + 1) (off / pageSize) (off % pageSize) 0 len pages buf

/-! ### References -/

/-- Source: `core/dio.c` `dio_clu_ref` -/
def dioCluRef (id : ℕ) : D Unit := do
  let c ← cluOf id
  if c.ref = 0 then stop .bug
  else setClu id { c with ref := c.ref + 1 }

/-- Source: `core/dio.c` `dio_clu_pin` -/
def dioCluPin (id : ℕ) : D Unit := do
  let c ← cluOf id
  setClu id { c with pin := c.pin + 1 }

/-- Source: `core/dio.c` `dio_clu_unpin` -/
def dioCluUnpin (id : ℕ) : D Unit := do
  let c ← cluOf id
  setClu id { c with pin := c.pin - 1 }

/-- A dirty cluster would be synced first, which takes a reference on a cluster that has none.
Source: `core/dio.c` `dio_clu_release` -/
def dioCluRelease (id : ℕ) : D Unit := do
  let c ← cluOf id
  if c.dirty then stop .bug
  else modify fun d => { d with clus := Function.update d.clus id none }

/-- Source: `core/dio.c` `dio_clu_deref` -/
def dioCluDeref (id : ℕ) : D Unit := do
  let c ← cluOf id
  if c.ref = 0 then stop .bug
  else
    setClu id { c with ref := c.ref - 1 }
    if c.ref - 1 = 0 then dioCluRelease id

/-! ### Reading and writing back -/

/-- The bio writes the pages to the device. Source: `core/dio.c` `dio_clu_sync` -/
def dioCluSync (id : ℕ) : D Unit := do
  let c ← cluOf id
  if c.dirty then
    -- `dio_io_alloc`
    dioCluRef id
    modify fun d => { d with disk := Function.update d.disk c.index c.pages }
    let c ← cluOf id
    setClu id { c with dirty := false }
    -- `dio_io_deref`
    dioCluDeref id
  else return ()

/-- The bio reads the pages. A thread that finds the read started waits for the one that started it.
Source: `core/dio.c` `dio_clu_wait_read` -/
def dioCluWaitRead (id : ℕ) : D Unit := do
  let c ← cluOf id
  if c.readStart then stop .hang
  else
    setClu id { c with readStart := true }
    dioCluRef id
    let d ← get
    let c ← cluOf id
    setClu id { c with pages := d.disk c.index, read := true }
    dioCluDeref id

/-! ### The tree -/

/-- Source: `core/dio.c` `dio_clu_alloc` -/
def dioCluAlloc (index : ℕ) : D ℕ := do
  let d ← get
  set { d.setClu d.next { ref := 1, pin := 0, index := index, dirty := false, read := false, readStart := false,
                          pages := fun _ => 0, age := 0 } with
        next := d.next + 1 }
  return d.next

/-- `cluster->age |= (1ull << 63)`. -/
def dioCluTouch (id : ℕ) : D Unit := do
  let c ← cluOf id
  setClu id { c with age := c.age ||| ((1 : UInt64) <<< 63) }

/-- Source: `core/dio.c` `dio_clu_lookup_create` -/
def dioCluLookupCreate (index : ℕ) : D ℕ := do
  let d ← get
  match find d.root index with
  | some id =>
    dioCluRef id
    dioCluPin id
    dioCluTouch id
    return id
  | none =>
    let id ← dioCluAlloc index
    modify fun d => { d with root := put index id d.root, nrClus := d.nrClus + 1 }
    dioCluRef id
    dioCluRef id
    dioCluPin id
    dioCluTouch id
    return id

/-- The cluster removed from the tree. Source: `core/dio.c` `dio_clu_remove` -/
def dioCluRemove (index : ℕ) : D (Option ℕ) := do
  let d ← get
  match find d.root index with
  | none => return none
  | some id =>
    let c ← cluOf id
    if c.pin ≠ 0 then return none
    else if c.index ≠ index then stop .bug
    else
      set { d with root := del index d.root, nrClus := d.nrClus - 1 }
      return some id

/-- Source: `core/dio.c` `dio_clu_get` -/
def dioCluGet (index : ℕ) : D ℕ := do
  let id ← dioCluLookupCreate index
  let c ← cluOf id
  if c.read then return id
  else
    dioCluWaitRead id
    return id

/-- Source: `core/dio.c` `dio_clu_put` -/
def dioCluPut (id : ℕ) : D Unit := do
  dioCluUnpin id
  dioCluDeref id

/-- `if (!test_bit(DIO_CLU_READ, ..)) dio_clu_wait_read(..)`. -/
def dioCluReady (id : ℕ) : D Unit := do
  let c ← cluOf id
  if c.read then return ()
  else dioCluWaitRead id

/-- Source: `core/dio.c` `dio_clu_read` -/
def dioCluRead (id : ℕ) (buf : Mem) (len off : ℕ) : D Mem := do
  let d ← get
  if off + len > d.cluSize then stop .bug
  else
    dioCluReady id
    let c ← cluOf id
    let io ← dioPagesIo d.nrPages false c.pages buf off len
    return io.2

/-- Source: `core/dio.c` `dio_clu_write` -/
def dioCluWrite (id : ℕ) (buf : Mem) (len off : ℕ) : D Unit := do
  let d ← get
  if off + len > d.cluSize then stop .bug
  else
    dioCluReady id
    let c ← cluOf id
    if !c.read then stop .bug
    else
      let io ← dioPagesIo d.nrPages true c.pages buf off len
      setClu id { c with dirty := true, pages := io.1 }

/-- The loop of `dio_clu_zero`: pages left and offset. -/
def cluZeroLoop (id : ℕ) : ℕ → ℕ → D Unit
  | 0, _ => return ()
  | left + 1, off => do
    dioCluWrite id (fun _ => 0) pageSize off
    cluZeroLoop id left (off + pageSize)

/-- Source: `core/dio.c` `dio_clu_zero` -/
def dioCluZero (id : ℕ) : D Unit := do
  let d ← get
  cluZeroLoop id d.nrPages 0

/-! ### All clusters -/

/-- Up to 16 clusters from index `first` on: `radix_tree_gang_lookup`. -/
def Dev.gang (d : Dev) (first : ℕ) : List ℕ :=
  ((d.root.filter fun x => first ≤ x.1).take 16).map Prod.snd

/-- References on a batch, and where the next one starts. -/
def refBatch : List ℕ → ℕ → D ℕ
  | [], first => return first
  | id :: ids, first => do
    dioCluRef id
    let c ← cluOf id
    refBatch ids (if c.index ≥ first then (c.index + 1) % 2 ^ 64 else first)

/-- Source: `core/dio.c` `dio_clu_age` -/
def dioCluAge (id : ℕ) : D Unit := do
  let c ← cluOf id
  setClu id { c with age := c.age >>> 1 }

def ageBatch : List ℕ → D Unit
  | [] => return ()
  | id :: ids => do
    dioCluAge id
    dioCluDeref id
    ageBatch ids

/-- The loop of `dio_clus_age`. -/
def ageLoop : ℕ → ℕ → D Unit
  | 0, _ => stop .hang
  | fuel + 1, first => do
    let d ← get
    let next ← refBatch (d.gang first) first
    if d.gang first = [] then return ()
    else
      ageBatch (d.gang first)
      ageLoop fuel next

/-- A round of the loop takes at least one cluster. Source: `core/dio.c` `dio_clus_age` -/
def dioClusAge : D Unit := do
  let d ← get
  ageLoop (d.root.length + 1) 0

/-- `PAGE_SIZE/sizeof(struct dio_cluster *)` -/
def nodesLimit : ℕ := pageSize / 8

/-- The unpinned clusters of a batch, as far as there is room; the others are given back. -/
def pickBatch : List ℕ → List ℕ → D (List ℕ)
  | [], nodes => return nodes
  | id :: ids, nodes => do
    let c ← cluOf id
    if c.pin = 0 ∧ nodes.length < nodesLimit then pickBatch ids (nodes ++ [id])
    else
      dioCluDeref id
      pickBatch ids nodes

/-- The first loop of `dio_clus_lru_frees`. -/
def pickLoop : ℕ → ℕ → List ℕ → D (List ℕ)
  | 0, _, _ => stop .hang
  | fuel + 1, first, nodes => do
    if nodes.length < nodesLimit then
      let d ← get
      let next ← refBatch (d.gang first) first
      if d.gang first = [] then return nodes
      else
        let nodes ← pickBatch (d.gang first) nodes
        pickLoop fuel next nodes
    else return nodes

/-- A cluster that was removed from the tree is written back and loses the references of its
allocation and of the tree. -/
def evict (id : ℕ) : D Unit := do
  let c ← cluOf id
  match ← dioCluRemove c.index with
  | none => return ()
  | some removed =>
    if removed ≠ id then stop .bug
    else
      dioCluSync id
      dioCluDeref id
      dioCluDeref id

/-- The second loop of `dio_clus_lru_frees`. -/
def evictLoop : List ℕ → D Unit
  | [] => return ()
  | id :: ids => do
    let d ← get
    if d.nrClus > d.nrMaxClus then
      evict id
      evictLoop ids
    else evictLoop ids

/-- The last loop of `dio_clus_lru_frees`. -/
def derefAll : List ℕ → D Unit
  | [] => return ()
  | id :: ids => do
    dioCluDeref id
    derefAll ids

/-- `cluster->age` for the sort. -/
def Dev.ageOf (d : Dev) (id : ℕ) : UInt64 := ((d.clus id).map Clu.age).getD 0

/-- Source: `core/dio.c` `dio_clus_lru_frees` -/
def dioClusLruFrees (sort : (ℕ → UInt64) → List ℕ → List ℕ) : D Unit := do
  let d ← get
  if d.nrClus ≤ d.nrMaxClus then return ()
  else
    let nodes ← pickLoop (d.root.length + 1) 0 []
    let d ← get
    let nodes := sort d.ageOf nodes
    evictLoop nodes
    derefAll nodes

/-- The inner loop of `dio_clus_release`. -/
def releaseBatch : List ℕ → D Unit
  | [] => return ()
  | id :: ids => do
    let c ← cluOf id
    setClu id { c with pin := 0 }
    let removed ← dioCluRemove c.index
    if removed ≠ some id then stop .bug
    else
      dioCluSync id
      dioCluDeref id
      dioCluDeref id
      dioCluDeref id
      releaseBatch ids

/-- The loop of `dio_clus_release`. -/
def releaseLoop : ℕ → D Unit
  | 0 => stop .hang
  | fuel + 1 => do
    let d ← get
    let _ ← refBatch (d.gang 0) 0
    if d.gang 0 = [] then
      if d.nrClus ≠ 0 then stop .bug else return ()
    else
      releaseBatch (d.gang 0)
      releaseLoop fuel

/-- A round of the loop removes at least one cluster. Source: `core/dio.c` `dio_clus_release` -/
def dioClusRelease : D Unit := do
  let d ← get
  releaseLoop (d.root.length + 1)

/-! ### Calls -/

/-- A call on the cache; `h` is the number of an earlier `dio_clu_get`. -/
inductive CluCall where
  | get (index : ℕ)
  | read (h off len : ℕ)
  | write (h off : ℕ) (data : List UInt8)
  | zero (h : ℕ)
  | sync (h : ℕ)
  | put (h : ℕ)
  | age
  | lruFrees

/-- The cache and its users: the clusters of the gets in turn, `none` after the put, and the bytes that
the reads returned. -/
structure CacheRun where
  dev : Dev
  handles : List (Option ℕ)
  reads : List (List UInt8)

/-- A call of the cache, and what becomes of its result. -/
def CacheRun.call {α : Type} (s : CacheRun) (x : D α) (k : α → CacheRun → CacheRun) : Except DioFault CacheRun :=
  match x s.dev with
  | .error (e, _) => .error e
  | .ok (a, d) => .ok (k a { s with dev := d })

/-- A call through the handle `h`, if it is still open. -/
def CacheRun.through {α : Type} (s : CacheRun) (h : ℕ) (x : ℕ → D α) (k : α → CacheRun → CacheRun) :
    Except DioFault CacheRun :=
  match s.handles[h]? with
  | some (some id) => s.call (x id) k
  | _ => .ok s

/-- One call. -/
def cacheStep (sort : (ℕ → UInt64) → List ℕ → List ℕ) : CluCall → CacheRun → Except DioFault CacheRun
  | .get index, s => s.call (dioCluGet index) fun id s => { s with handles := s.handles ++ [some id] }
  | .read h off len, s => s.through h (fun id => dioCluRead id (fun _ => 0) len off) fun buf s =>
    { s with reads := s.reads ++ [slice buf 0 len] }
  | .write h off data, s => s.through h (fun id => dioCluWrite id (fun i => data.getD i 0) data.length off)
      fun _ s => s
  | .zero h, s => s.through h dioCluZero fun _ s => s
  | .sync h, s => s.through h dioCluSync fun _ s => s
  | .put h, s => s.through h dioCluPut fun _ s => { s with handles := s.handles.set h none }
  | .age, s => s.call dioClusAge fun _ s => s
  | .lruFrees, s => s.call (dioClusLruFrees sort) fun _ s => s

/-! ### What the cache is for -/

/-- The bytes of the clusters, the indices of the gets in turn, and the bytes that reads returned. -/
structure Volume where
  bytes : ℕ → Mem
  handles : List (Option ℕ)
  reads : List (List UInt8)

/-- A call on the bytes. -/
def volumeStep (cluSize : ℕ) : CluCall → Volume → Volume
  | .get index, v => { v with handles := v.handles ++ [some index] }
  | .read h off len, v =>
    match v.handles[h]? with
    | some (some i) => { v with reads := v.reads ++ [slice (v.bytes i) off len] }
    | _ => v
  | .write h off data, v =>
    match v.handles[h]? with
    | some (some i) =>
      { v with bytes := Function.update v.bytes i (copyIn (v.bytes i) off (fun j => data.getD j 0) data.length) }
    | _ => v
  | .zero h, v =>
    match v.handles[h]? with
    | some (some i) => { v with bytes := Function.update v.bytes i (copyIn (v.bytes i) 0 (fun _ => 0) cluSize) }
    | _ => v
  | .put h, v => { v with handles := v.handles.set h none }
  | .sync _, v | .age, v | .lruFrees, v => v

/-- Indices are those of clusters on a device, and ranges lie inside a cluster. -/
def CluCall.Valid (cluSize : ℕ) : CluCall → Prop
  | .get index => index < 2 ^ 51
  | .read _ off len => off + len ≤ cluSize
  | .write _ off data => off + data.length ≤ cluSize
  | _ => True

/-- A device with nothing cached. -/
def Dev.init (nrPages nrMaxClus : ℕ) (disk : ℕ → Mem) : Dev where
  nrPages := nrPages
  nrMaxClus := nrMaxClus
  nrClus := 0
  root := []
  clus := fun _ => none
  next := 0
  disk := disk

end Nkfs
