import Nkfs.Btree.Ops

/-!
# B-tree operations on nodes in memory (`core/btree.c`)

The operations of `Btree/Ops.lean` once more, with everything that concerns nodes as objects: pointers,
reference counts, the node cache of the tree, allocation and release, and writes that fail. A node is an
object with a number; a pointer is that number. `Heap.sb` is the superblock state as the code sees it through
the cluster cache, and `Heap.log` are the node writes that reached the device, in order.

What `nkfs_btree_node_write` returns is checked at two places only, when a node is created and when the leaf
flag of a new root is set; everywhere else it is dropped. `WriteSite` tells these calls apart.
-/

namespace Nkfs.Refs

open Lib.Program

/-! ### The state -/

/-- A node in memory and its reference count. -/
structure NodeObj where
  node : Node
  ref : ℤ

/-- Where `nkfs_btree_node_write` is called: in `nkfs_btree_node_create`, for the leaf flag in
`nkfs_btree_create`, or at a place that drops the result. -/
inductive WriteSite where
  | create
  | flag
  | dropped
  deriving DecidableEq

/-- What becomes of a write: it reaches the device, `dio_clu_get` fails, or `dio_clu_sync` fails after the
cluster was changed in memory. -/
inductive WriteOutcome where
  | done
  | noCluster
  | notSynced
  deriving DecidableEq

/-- One tree and the device below it. -/
structure Heap where
  sb : Sb
  /-- Nodes on the device before the writes in `log`. -/
  dev : ℕ → Option Node
  log : List Node
  outcome : WriteSite → ℕ → WriteOutcome
  writes : WriteSite → ℕ
  objs : ℕ → Option NodeObj
  next : ℕ
  /-- `tree->nodes`, by block. -/
  nodes : ℕ → Option ℕ
  nodesActive : ℤ

/-- How a run can go wrong: as in `Btree/Ops.lean`, at a node that was freed, or at the `NKFS_BUG_ON` of a
reference count. -/
inductive HeapFault where
  | code (e : Fault)
  | freed
  | count
  deriving DecidableEq

abbrev P := Prog Heap HeapFault

/-- Nodes on a device after some were written. -/
def writeAll (d : ℕ → Option Node) (ws : List Node) : ℕ → Option Node :=
  ws.foldl (fun d m => Function.update d m.block (some m)) d

/-- Nodes on the device. -/
def Heap.disk (c : Heap) : ℕ → Option Node := writeAll c.dev c.log

/-- A call that does not concern nodes in memory. -/
def onSb {α : Type} (x : M α) : P α := fun c =>
  match x c.sb with
  | .ok (a, s) => .ok (a, { c with sb := s })
  | .error (e, s) => .error (.code e, { c with sb := s })

/-- A computation on nodes. -/
def slots {α : Type} (y : Except Fault α) : P α := fun c =>
  match y with
  | .ok a => .ok (a, c)
  | .error e => .error (.code e, c)

/-! ### Objects -/

def Heap.setObj (c : Heap) (n : ℕ) (o : Option NodeObj) : Heap := { c with objs := Function.update c.objs n o }

/-- The object behind a pointer. -/
def getObj (n : ℕ) : P NodeObj := do
  let c ← get
  match c.objs n with
  | none => stop .freed
  | some o => return o

def getNode (n : ℕ) : P Node := do
  let o ← getObj n
  return o.node

def setNode (n : ℕ) (node : Node) : P Unit := do
  let o ← getObj n
  modify fun c => c.setObj n (some { o with node := node })

/-- Memory is there; where the source tests for it, the caller has asked `nextAlloc`.
Source: `core/btree.c` `nkfs_btree_node_alloc` -/
def nodeAlloc (node : Node) : P ℕ := do
  let c ← get
  set { c.setObj c.next (some ⟨node, 1⟩) with next := c.next + 1 }
  return c.next

/-- Source: `core/btree.c` `__nkfs_btree_node_free` -/
def nodeFree (n : ℕ) : P Unit := do
  let _ ← getObj n
  modify fun c => c.setObj n none

/-- Source: `core/btree.c` `nkfs_btree_node_ref` -/
def nodeRef (n : ℕ) : P Unit := do
  let o ← getObj n
  if o.ref ≤ 0 then stop .count
  else modify fun c => c.setObj n (some { o with ref := o.ref + 1 })

/-- Source: `core/btree.c` `nkfs_btree_nodes_remove` -/
def nodesRemove (n : ℕ) : P Unit := do
  let node ← getNode n
  let c ← get
  if node.block = 0 then return ()
  else
    match c.nodes node.block with
    | none => return ()
    | some m =>
      if m ≠ n then stop (.code .bug)
      else set { c with nodes := Function.update c.nodes node.block none, nodesActive := c.nodesActive - 1 }

/-- Source: `core/btree.c` `nkfs_btree_node_deref`, `__nkfs_btree_node_release` -/
def nodeDeref (n : ℕ) : P Unit := do
  let o ← getObj n
  if o.ref ≤ 0 then stop .count
  else
    modify fun c => c.setObj n (some { o with ref := o.ref - 1 })
    if o.ref - 1 = 0 then
      nodesRemove n
      nodeFree n
    else return ()

/-- `if (node != first) NKFS_BTREE_NODE_DEREF(node)`. -/
def derefUnless (first n : ℕ) : P Unit := if n ≠ first then nodeDeref n else return ()

/-- `if (node) NKFS_BTREE_NODE_DEREF(node)`. -/
def derefSome : Option ℕ → P Unit
  | none => return ()
  | some n => nodeDeref n

/-- Source: `core/btree.c` `nkfs_btree_nodes_lookup` -/
def nodesLookup (block : ℕ) : P (Option ℕ) := do
  let c ← get
  match c.nodes block with
  | none => return none
  | some n =>
    nodeRef n
    return some n

/-- Source: `core/btree.c` `nkfs_btree_nodes_insert` -/
def nodesInsert (n : ℕ) : P ℕ := do
  let node ← getNode n
  let c ← get
  match c.nodes node.block with
  | some m =>
    nodeRef m
    return m
  | none =>
    set { c with nodes := Function.update c.nodes node.block (some n), nodesActive := c.nodesActive + 1 }
    nodeRef n
    return n

/-! ### Nodes and blocks -/

/-- Source: `core/btree.c` `nkfs_btree_node_read` -/
def nodeRead (block : ℕ) : P (Option ℕ) := do
  let c ← get
  if block = 0 ∨ block ≥ c.sb.env.nrBlocks then stop (.code .bug)
  else
    match ← nodesLookup block with
    | some n => return some n
    | none =>
      match ← onSb (Nkfs.nodeRead block) with
      | none => return none
      | some node =>
        let n ← nodeAlloc node
        let inserted ← nodesInsert n
        if inserted ≠ n then
          nodeFree n
          return some inserted
        else
          nodeDeref inserted
          return some n

/-- The `NKFS_BUG_ON` on the block number in `nkfs_btree_node_write`. -/
def checkBlock (block : ℕ) : M Unit := do
  let s ← get
  if block = 0 ∨ block ≥ s.env.nrBlocks then stop .bug else return ()

/-- Source: `core/btree.c` `nkfs_btree_node_write` -/
def nodeWrite (site : WriteSite) (n : ℕ) : P (Except Errno Unit) := do
  let node ← getNode n
  let c ← get
  set { c with writes := Function.update c.writes site (c.writes site + 1) }
  match c.outcome site (c.writes site) with
  | .noCluster =>
    onSb (checkBlock node.block)
    return .error .eio
  | .notSynced =>
    onSb (Nkfs.nodeWrite node)
    return .error .eio
  | .done =>
    onSb (Nkfs.nodeWrite node)
    modify fun c => { c with log := c.log ++ [node] }
    return .ok ()

/-- `nkfs_btree_node_write` with its result dropped. -/
def writeNode (n : ℕ) : P Unit := do
  let _ ← nodeWrite .dropped n

/-- Source: `core/btree.c` `nkfs_btree_node_delete` -/
def nodeDelete (n : ℕ) : P Unit := do
  nodesRemove n
  let node ← getNode n
  let node ← onSb (Nkfs.nodeDelete node)
  setNode n node

/-- Source: `core/btree.c` `nkfs_btree_node_create` -/
def nodeCreate : P (Option ℕ) := do
  if ← onSb nextAlloc then
    let n ← nodeAlloc Node.zero
    match ← onSb blockAlloc with
    | .error _ =>
      nodeFree n
      return none
    | .ok block =>
      setNode n { Node.zero with block := block }
      match ← nodeWrite .create n with
      | .error _ =>
        nodeDelete n
        nodeFree n
        return none
      | .ok () =>
        let inserted ← nodesInsert n
        if inserted ≠ n then
          nodeDelete n
          nodeFree n
          return some inserted
        else
          nodeDeref inserted
          return some n
  else return none

/-! ### Trees -/

/-- Source: `core/btree.h` `struct nkfs_btree`; the cache is in `Heap` -/
structure TreeObj where
  root : ℕ
  releasing : Bool

/-- Source: `core/btree.c` `nkfs_btree_release` -/
def btreeRelease (root : Option ℕ) : P Unit := do
  derefSome root
  let c ← get
  if c.nodesActive ≠ 0 then stop (.code .bug) else return ()

/-- Source: `core/btree.c` `nkfs_btree_create` -/
def btreeCreate (rootBlock : ℕ) : P (Option TreeObj) := do
  if rootBlock ≠ 0 then
    match ← nodeRead rootBlock with
    | none =>
      btreeRelease none
      return none
    | some root => return some ⟨root, false⟩
  else
    match ← nodeCreate with
    | none =>
      btreeRelease none
      return none
    | some root =>
      let node ← getNode root
      setNode root { node with leaf := true }
      match ← nodeWrite .flag root with
      | .error _ =>
        btreeRelease (some root)
        return none
      | .ok () => return some ⟨root, false⟩

/-! ### Insertion -/

/-- The branch of `nkfs_btree_node_insert_nonfull` that splits the full child `c` of `n`; `false` where it
returns `-EIO`. -/
def splitFull (first n c i : ℕ) (node child : Node) : P Bool := do
  match ← nodeCreate with
  | none =>
    derefUnless first n
    nodeDeref c
    return false
  | some w =>
    let new ← getNode w
    let (node, child, new) ← slots (splitChild node child i new)
    setNode n node
    setNode c child
    setNode w new
    writeNode n
    writeNode c
    writeNode w
    nodeDeref w
    nodeDeref c
    return true

/-- Source: `core/btree.c` `nkfs_btree_node_insert_nonfull` -/
def insertNonfull (first : ℕ) (key : Key) (value : ℕ) (replace : Bool) : ℕ → ℕ → P (Except Errno Unit)
  | 0, _ => stop (.code .fuel)
  | fuel + 1, n => do
    let node ← getNode n
    match ← slots (hasKey node key) with
    | some i =>
      if replace then
        let node ← slots (copyValue node i value)
        setNode n node
        writeNode n
        derefUnless first n
        return .ok ()
      else
        derefUnless first n
        return .error .eexist
    | none =>
      if node.leaf then
        let i ← slots (findKeyIndex node key)
        let node ← slots (putKeyValue node i key value)
        setNode n { node with nrKeys := node.nrKeys + 1 }
        writeNode n
        derefUnless first n
        return .ok ()
      else
        let i ← slots (findKeyIndex node key)
        let block ← slots (getChildVal node i)
        match ← nodeRead block with
        | none =>
          derefUnless first n
          return .error .eio
        | some c =>
          let child ← getNode c
          if child.isFull then
            if ← splitFull first n c i node child then insertNonfull first key value replace fuel n
            else return .error .eio
          else
            derefUnless first n
            insertNonfull first key value replace fuel c

/-- The root split of `nkfs_btree_insert_key`. -/
def splitRoot (root : ℕ) : P (Except Errno Unit) := do
  match ← nodeCreate with
  | none => return .error .enomem
  | some clone =>
    if ← onSb nextAlloc then
      let new ← nodeAlloc Node.zero
      match ← nodeCreate with
      | none =>
        nodeDelete clone
        nodeDeref clone
        nodeFree new
        return .error .enomem
      | some new2 =>
        let rootNode ← getNode root
        let cloneNode ← getNode clone
        let cloneNode ← slots (nodeCopy cloneNode rootNode)
        let newNode ← getNode new
        let newNode ← slots (setChildVal { newNode with leaf := false, nrKeys := 0 } 0 cloneNode.block)
        let new2Node ← getNode new2
        let (newNode, cloneNode, new2Node) ← slots (splitChild newNode cloneNode 0 new2Node)
        let rootNode ← slots (nodeCopy rootNode newNode)
        setNode clone cloneNode
        setNode new newNode
        setNode new2 new2Node
        setNode root rootNode
        writeNode clone
        writeNode new2
        writeNode root
        nodeDeref clone
        nodeDeref new2
        nodeFree new
        return .ok ()
    else
      nodeDelete clone
      nodeDeref clone
      return .error .enomem

/-- Source: `core/btree.c` `nkfs_btree_insert_key` -/
def insertKey (tree : TreeObj) (key : Key) (value : ℕ) (replace : Bool) : P (Except Errno Unit) := do
  if tree.releasing then return .error .eagain
  else
    let c ← get
    let root ← getNode tree.root
    if root.isFull then
      match ← splitRoot tree.root with
      | .error e => return .error e
      | .ok () => insertNonfull tree.root key value replace c.sb.loopBound tree.root
    else insertNonfull tree.root key value replace c.sb.loopBound tree.root

/-! ### Erasing a tree -/

/-- `if (cond) x`. -/
def runIf (cond : Bool) (x : P Unit) : P Unit := if cond then x else return ()

/-- Source: `core/btree.c` `nkfs_btree_erase_node` -/
def eraseNode (keyErase : Key → ℕ → M Unit) : ℕ → ℕ → P Unit
  | 0, _ => stop (.code .fuel)
  | fuel + 1, n => do
    let node ← getNode n
    runIf (node.nrKeys ≠ 0 && !node.leaf) ((List.range (node.nrKeys + 1)).forM fun i => do
      let block ← slots (getChildVal node i)
      match ← nodeRead block with
      | none => stop (.code .bug)
      | some child =>
        eraseNode keyErase fuel child
        nodeDeref child)
    (List.range node.nrKeys).forM fun i => do
      let key ← slots (nodeKey node i)
      let value ← slots (nodeValue node i)
      onSb (keyErase key value)
    nodeDelete n

/-- Source: `core/btree.c` `nkfs_btree_erase` -/
def btreeErase (tree : TreeObj) (keyErase : Key → ℕ → M Unit) : P TreeObj := do
  let c ← get
  eraseNode keyErase c.sb.loopBound tree.root
  return { tree with releasing := true }

end Nkfs.Refs
