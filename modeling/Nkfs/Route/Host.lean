import Nkfs.Errno
import Nkfs.Lib.Program
import Nkfs.Lib.SearchTree

/-!
# The neighbours of a host

The route module keeps the neighbours of a host in a search tree by address, in a list and in a
counter, and the host ids they are attached to in a second tree. Neighbours and host ids are objects
in memory with reference counts; a function that reads an object that was freed faults. The kernel's
red-black trees enter as a `Balancer`. An allocation takes the next address; `fails` says which
allocations fail.

Connections (`neigh->con`) and the locks are left out: the functions here are those that run under
them.
-/

namespace Nkfs

open Lib.Program Lib.SearchTree

/-! ### Objects -/

/-- Source: `include/nkfs_obj_id.h` `struct nkfs_obj_id` -/
structure ObjId where
  high : UInt64
  low : UInt64
  deriving DecidableEq, Repr

/-- Source: `crt/obj_id.c` `nkfs_obj_id_zero` -/
def ObjId.zero : ObjId := ⟨0, 0⟩

/-- Source: `crt/obj_id.c` `nkfs_obj_id_cmp` -/
def objIdCmp (id1 id2 : ObjId) : Ordering :=
  if id1.high > id2.high then .gt
  else if id1.high < id2.high then .lt
  else if id1.low > id2.low then .gt
  else if id1.low < id2.low then .lt
  else .eq

/-- Source: `core/net.c` `nkfs_ip_port_cmp` -/
def ipPortCmp (ip1 : UInt32) (port1 : ℤ) (ip2 : UInt32) (port2 : ℤ) : Ordering :=
  if ip1 = ip2 then
    if port1 < port2 then .lt
    else if port1 > port2 then .gt
    else .eq
  else if ip1 > ip2 then .gt
  else .lt

/-- The bits of `neigh->state`. -/
structure NeighState where
  inited : Bool
  shaked : Bool
  hbtOk : Bool
  deriving DecidableEq, Repr

/-- Source: `core/route.h` `struct nkfs_neigh`. `host` says whether `neigh->host` is set, `linked`
whether `neigh->hid_list` is on a list. -/
structure Neigh where
  ref : ℕ
  hid : Option ℕ
  linked : Bool
  host : Bool
  ip : UInt32
  port : ℤ
  state : NeighState
  hbtTime : UInt64
  hbtDelay : UInt64

/-- Source: `core/route.h` `struct nkfs_host_id` -/
structure HostId where
  ref : ℕ
  host : Bool
  neighList : List ℕ
  hostId : ObjId

/-- Source: `core/route.h` `struct nkfs_host`, with the memory its objects live in. -/
structure Host where
  netId : ObjId
  hostId : ObjId
  neighs : RbTree ℕ
  neighList : List ℕ
  neighsActive : ℤ
  hostIds : RbTree ℕ
  hostIdsActive : ℤ
  neighMem : ℕ → Option Neigh
  hidMem : ℕ → Option HostId
  next : ℕ
  fails : ℕ → Bool

/-- Functions on a host. -/
abbrev R := Prog Host RefFault

/-- Source: `include/nkfs_const.h` `NKFS_ROUTE_MAX_NEIGHS` -/
def routeMaxNeighs : ℕ := 32

/-- Source: `core/route.c` `nkfs_host_create` -/
def Host.create (netId hostId : ObjId) (fails : ℕ → Bool) : Host where
  netId := netId
  hostId := hostId
  neighs := .nil
  neighList := []
  neighsActive := 0
  hostIds := .nil
  hostIdsActive := 0
  neighMem _ := none
  hidMem _ := none
  next := 0
  fails := fails

/-! ### Memory -/

def readNeigh (p : ℕ) : R Neigh := fun h =>
  match h.neighMem p with
  | none => .error (.freed, h)
  | some n => .ok (n, h)

def readHid (q : ℕ) : R HostId := fun h =>
  match h.hidMem q with
  | none => .error (.freed, h)
  | some d => .ok (d, h)

/-- The host with the neighbour `p` replaced. -/
def Host.setNeigh (h : Host) (p : ℕ) (n : Option Neigh) : Host :=
  { h with neighMem := Function.update h.neighMem p n }

/-- The host with the host id `q` replaced. -/
def Host.setHid (h : Host) (q : ℕ) (d : Option HostId) : Host :=
  { h with hidMem := Function.update h.hidMem q d }

def writeNeigh (p : ℕ) (n : Neigh) : R Unit := modify fun h => h.setNeigh p (some n)

def writeHid (q : ℕ) (d : HostId) : R Unit := modify fun h => h.setHid q (some d)

/-- The next address, unless the allocation fails. -/
def kmalloc : R (Option ℕ) := do
  let h ← get
  set { h with next := h.next + 1 }
  return if h.fails h.next then none else some h.next

/-- A neighbour as `memset` and `atomic_set` leave it. -/
def Neigh.blank : Neigh := ⟨1, none, false, false, 0, 0, ⟨false, false, false⟩, 0, 0⟩

/-- Source: `core/route.c` `nkfs_neigh_alloc` -/
def neighAlloc : R (Option ℕ) := do
  match ← kmalloc with
  | none => return none
  | some p =>
    writeNeigh p .blank
    return some p

/-- Source: `core/route.c` `nkfs_hid_alloc` -/
def hidAlloc : R (Option ℕ) := do
  match ← kmalloc with
  | none => return none
  | some q =>
    writeHid q ⟨1, false, [], .zero⟩
    return some q

/-! ### The tree of host ids -/

/-- The comparison of `__nkfs_host_ids_lookup` and `__nkfs_host_id_insert` at a node of the tree. -/
def Host.hidCmp (h : Host) (id : ObjId) (q : ℕ) : Except RefFault Ordering :=
  match h.hidMem q with
  | none => .error .freed
  | some d => .ok (objIdCmp id d.hostId)

/-- Source: `core/route.c` `__nkfs_host_ids_lookup` -/
def hostIdsLookup (id : ObjId) : R (Option ℕ) := do
  let h ← get
  liftM (h.hostIds.search (h.hidCmp id))

/-- Source: `core/route.c` `nkfs_hid_ref` -/
def hidRef (q : ℕ) : R Unit := do
  let d ← readHid q
  if d.ref = 0 then stop .bug
  else writeHid q { d with ref := d.ref + 1 }

section tree

variable (rb : Balancer ℕ)

/-- Source: `core/route.c` `__nkfs_host_ids_remove` -/
def hostIdsRemove (q : ℕ) : R Unit := do
  let d ← readHid q
  match ← hostIdsLookup d.hostId with
  | none => return ()
  | some found =>
    if found ≠ q then stop .bug
    else modify fun h =>
      { h with hostIds := rb.erase found h.hostIds, hostIdsActive := h.hostIdsActive - 1 }

/-- Source: `core/route.c` `nkfs_hid_release` -/
def hidRelease (q : ℕ) : R Unit := do
  let d ← readHid q
  if d.host then hostIdsRemove rb q
  modify fun h => h.setHid q none

/-- Source: `core/route.c` `nkfs_hid_deref` -/
def hidDeref (q : ℕ) : R Unit := do
  let d ← readHid q
  if d.ref = 0 then stop .bug
  else do
    writeHid q { d with ref := d.ref - 1 }
    if d.ref - 1 = 0 then hidRelease rb q

/-- Source: `core/route.c` `__nkfs_host_id_insert` -/
def hostIdInsert (q : ℕ) : R ℕ := do
  let d ← readHid q
  let h ← get
  match ← hostIdsLookup d.hostId with
  | some found =>
    hidRef found
    return found
  | none =>
    let t ← liftM (h.hostIds.link (h.hidCmp d.hostId) q)
    modify fun h =>
      { h with hostIds := rb.insertColor q t, hostIdsActive := h.hostIdsActive + 1 }
    writeHid q { d with host := true }
    hidRef q
    return q

/-- Source: `core/route.c` `nkfs_host_id_lookup_or_create` -/
def hostIdLookupOrCreate (id : ObjId) : R (Option ℕ) := do
  match ← hidAlloc with
  | none => return none
  | some q =>
    let d ← readHid q
    writeHid q { d with hostId := id }
    let inserted ← hostIdInsert rb q
    hidDeref rb q
    return some inserted

/-! ### Attaching neighbours to host ids -/

/-- Source: `core/route.c` `nkfs_neigh_attach_host_id` -/
def neighAttachHostId (p q : ℕ) : R Unit := do
  let n ← readNeigh p
  if n.hid.isSome then stop .bug
  else if n.linked then stop .bug
  else do
    let d ← readHid q
    writeNeigh p { n with hid := some q, linked := true }
    writeHid q { d with neighList := d.neighList ++ [p] }

/-- Source: `core/route.c` `nkfs_neigh_detach_hid` -/
def neighDetachHid (p : ℕ) : R Unit := do
  let n ← readNeigh p
  match n.hid with
  | none => return ()
  | some q => do
    let d ← readHid q
    writeNeigh p { n with hid := none, linked := false }
    writeHid q { d with neighList := d.neighList.erase p }
    hidDeref rb q

/-! ### The tree of neighbours -/

/-- The comparison of `__nkfs_neighs_lookup` and `__nkfs_neighs_insert` at a node of the tree. -/
def Host.neighCmp (h : Host) (ip : UInt32) (port : ℤ) (p : ℕ) : Except RefFault Ordering :=
  match h.neighMem p with
  | none => .error .freed
  | some n => .ok (ipPortCmp ip port n.ip n.port)

/-- Source: `core/route.c` `__nkfs_neighs_lookup` -/
def neighsLookup (ip : UInt32) (port : ℤ) : R (Option ℕ) := do
  let h ← get
  liftM (h.neighs.search (h.neighCmp ip port))

/-- Source: `core/route.c` `__nkfs_neighs_remove` -/
def neighsRemove (p : ℕ) : R Unit := do
  let n ← readNeigh p
  match ← neighsLookup n.ip n.port with
  | none => return ()
  | some found =>
    if found ≠ p then stop .bug
    else modify fun h =>
      { h with neighs := rb.erase found h.neighs, neighsActive := h.neighsActive - 1 }

/-- Source: `core/route.c` `nkfs_neigh_release` -/
def neighRelease (p : ℕ) : R Unit := do
  neighDetachHid rb p
  let n ← readNeigh p
  if n.host then neighsRemove rb p
  modify fun h => h.setNeigh p none

/-- Source: `core/route.c` `nkfs_neigh_ref` -/
def neighRef (p : ℕ) : R Unit := do
  let n ← readNeigh p
  if n.ref = 0 then stop .bug
  else writeNeigh p { n with ref := n.ref + 1 }

/-- Source: `core/route.c` `nkfs_neigh_deref` -/
def neighDeref (p : ℕ) : R Unit := do
  let n ← readNeigh p
  if n.ref = 0 then stop .bug
  else do
    writeNeigh p { n with ref := n.ref - 1 }
    if n.ref - 1 = 0 then neighRelease rb p

/-- Source: `core/route.c` `__nkfs_neighs_insert` -/
def neighsInsert (p : ℕ) : R (Option ℕ) := do
  let n ← readNeigh p
  let h ← get
  match ← neighsLookup n.ip n.port with
  | some found =>
    neighRef found
    return some found
  | none =>
    if h.neighsActive ≥ routeMaxNeighs then return none
    else do
      let t ← liftM (h.neighs.link (h.neighCmp n.ip n.port) p)
      modify fun h =>
        { h with neighs := rb.insertColor p t, neighsActive := h.neighsActive + 1 }
      writeNeigh p { n with host := true }
      neighRef p
      return some p

/-! ### Requests -/

/-- Source: `core/route.c` `nkfs_host_add_neigh` -/
def hostAddNeigh (p : ℕ) : R (Except Errno Unit) := do
  match ← neighsInsert rb p with
  | none => return .error .elimit
  | some inserted =>
    if inserted = p then
      modify fun h => { h with neighList := h.neighList ++ [p] }
      neighDeref rb inserted
      return .ok ()
    else
      neighDeref rb inserted
      return .error .eexist

/-- The second loop of `nkfs_host_remove_neigh`, over the entries it meets: each is taken off
`host->neigh_list` and its reference dropped. -/
def dropListed : List ℕ → R Unit
  | [] => return ()
  | p :: ps => do
    modify fun h => { h with neighList := h.neighList.erase p }
    neighDeref rb p
    dropListed ps

/-- The first loop of `nkfs_host_remove_neigh`: the entries it leaves on `host->neigh_list`. -/
def leaveOthers (ip : UInt32) (port : ℤ) : List ℕ → R (List ℕ)
  | [] => return []
  | p :: ps => do
    let n ← readNeigh p
    let rest ← leaveOthers ip port ps
    return if n.ip = ip ∧ n.port = port then rest else p :: rest

/-- The second loop runs over `host->neigh_list` again, not over the entries moved to the local
list. Source: `core/route.c` `nkfs_host_remove_neigh` -/
def hostRemoveNeigh (ip : UInt32) (port : ℤ) : R (Except Errno Unit) := do
  let h ← get
  let rest ← leaveOthers ip port h.neighList
  set { h with neighList := rest }
  dropListed rb rest
  return if rest.length ≠ 0 then .ok () else .error .enoent

/-- Source: `core/route.c` `nkfs_route_neigh_add` -/
def neighAdd (ip : UInt32) (port : ℤ) : R (Except Errno Unit) := do
  if ip = 0 ∨ port = 0 then return .error .einval
  match ← neighAlloc with
  | none => return .error .enomem
  | some p =>
    writeNeigh p { Neigh.blank with ip := ip, port := port, state := ⟨true, false, false⟩ }
    let err ← hostAddNeigh rb p
    if err ≠ .ok () then neighDeref rb p
    return err

/-- Source: `core/route.c` `nkfs_route_neigh_remove` -/
def neighRemove (ip : UInt32) (port : ℤ) : R (Except Errno Unit) := do
  if ip = 0 ∨ port = 0 then return .error .einval
  hostRemoveNeigh rb ip port

/-- The host id of the reply, or the error. Source: `core/route.c` `nkfs_neigh_handshake` -/
def neighHandshake (srcNetId srcHostId : ObjId) (srcIp : UInt32) (srcPort : ℤ) :
    R (Except Errno ObjId) := do
  let h ← get
  if objIdCmp srcNetId h.netId ≠ .eq then return .error .einval
  if srcIp = 0 ∨ srcPort = 0 then return .error .einval
  match ← neighAlloc with
  | none => return .error .enomem
  | some p =>
    writeNeigh p { Neigh.blank with ip := srcIp, port := srcPort }
    match ← hostIdLookupOrCreate rb srcHostId with
    | none =>
      neighDeref rb p
      return .error .enomem
    | some q =>
      neighAttachHostId p q
      let n ← readNeigh p
      writeNeigh p { n with state := { n.state with inited := true, shaked := true } }
      match ← hostAddNeigh rb p with
      | .error err =>
        neighDeref rb p
        return .error err
      | .ok () => return .ok h.hostId

end tree

/-- Source: `include/nkfs_neigh_info.h` `struct nkfs_neigh_info` -/
structure NeighInfo where
  ip : UInt32
  port : ℤ
  state : NeighState
  hostId : ObjId
  hbtTime : UInt64
  hbtDelay : UInt64
  deriving DecidableEq

/-- The `host_id` of an entry: zeroed, then copied from `neigh->hid` if that is set. -/
def infoHostId : Option ℕ → R ObjId
  | none => return .zero
  | some q => do
    let d ← readHid q
    return d.hostId

/-- The loop of `nkfs_route_neigh_info`; `room` entries are left in the array. -/
def fillInfo : ℕ → List ℕ → R (Except Errno (List NeighInfo))
  | _, [] => return .ok []
  | 0, _ :: _ => return .error .erange
  | room + 1, p :: ps => do
    let n ← readNeigh p
    let hostId ← infoHostId n.hid
    match ← fillInfo room ps with
    | .error err => return .error err
    | .ok infos => return .ok (⟨n.ip, n.port, n.state, hostId, n.hbtTime, n.hbtDelay⟩ :: infos)

/-- The entries reported; none with an error. Source: `core/route.c` `nkfs_route_neigh_info` -/
def neighInfo (maxNrNeighs : ℕ) : R (Except Errno (List NeighInfo)) := do
  let h ← get
  fillInfo maxNrNeighs h.neighList

end Nkfs
