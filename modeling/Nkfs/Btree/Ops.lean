import Nkfs.Btree.Node
import Nkfs.Core.Balloc

/-!
# B-tree operations (`core/btree.c`)

The operations that read, write, create and delete nodes. A node that a function has in hand is a
value; the function writes it back where the source does. Reference counts, the node cache and the
tree's lock are left out: the functions run one at a time, and `Sb.nodes` holds what the cache and
the disk agree on. The loops of the source run on a bound, `Sb.loopBound`, which no run on a tree
reaches.
-/

namespace Nkfs

open Lib.Program

/-! ### Nodes and blocks -/

/-- `NULL` is `none`. Source: `core/btree.c` `nkfs_btree_node_read` -/
def nodeRead (block : ℕ) : M (Option Node) := do
  let s ← get
  if block = 0 ∨ block ≥ s.env.nrBlocks then stop .bug
  else return (s.nodes block).map fun n => { n with block := block }

/-- The state after a node was written to its block. -/
def Sb.writeNode (s : Sb) (node : Node) : Sb :=
  { s with
    nodes := Function.update s.nodes node.block (some node)
    inodes := Function.update s.inodes node.block none
    clus := Function.update s.clus node.block (s.env.nodeImage node (s.clus node.block)) }

/-- The checksum reads every page of the node, so a missing one faults.
Source: `core/btree.c` `nkfs_btree_node_write` -/
def nodeWrite (node : Node) : M Unit := do
  let s ← get
  if node.block = 0 ∨ node.block ≥ s.env.nrBlocks then stop .bug
  else if (List.range btreeChildPages).all node.page then set (s.writeNode node)
  else stop .null

/-- The node afterwards; the error of the allocator is dropped.
Source: `core/btree.c` `nkfs_btree_node_delete` -/
def nodeDelete (node : Node) : M Node := do
  let _ ← blockFree node.block
  let s ← get
  set { s with nodes := Function.update s.nodes node.block (some { node with block := 0 }) }
  return { node with block := 0 }

/-- Source: `core/btree.c` `nkfs_btree_node_create` -/
def nodeCreate : M (Option Node) := do
  if ← nextAlloc then
    match ← blockAlloc with
    | .error _ => return none
    | .ok block =>
      nodeWrite { Node.zero with block := block }
      return some { Node.zero with block := block }
  else return none

/-- Source: `core/btree.c` `nkfs_btree_create` -/
def btreeCreate (rootBlock : ℕ) : M (Option Tree) := do
  if rootBlock ≠ 0 then
    match ← nodeRead rootBlock with
    | none => return none
    | some _ => return some { root := rootBlock, releasing := false }
  else
    match ← nodeCreate with
    | none => return none
    | some node =>
      nodeWrite { node with leaf := true }
      return some { root := node.block, releasing := false }

/-- `tree->root`. -/
def treeRoot (tree : Tree) : M Node := do
  let s ← get
  match s.nodes tree.root with
  | none => stop .null
  | some node => return node

/-- The bound for the loops over the levels of a tree. -/
def Sb.loopBound (s : Sb) : ℕ := 2 * s.env.nrBlocks + 2

/-! ### Insertion -/

/-- Source: `core/btree.c` `nkfs_btree_node_insert_nonfull` -/
def insertNonfull (key : Key) (value : ℕ) (replace : Bool) : ℕ → Node → M (Except Errno Unit)
  | 0, _ => stop .fuel
  | fuel + 1, node => do
    match ← hasKey node key with
    | some i =>
      if replace then
        let node ← copyValue node i value
        nodeWrite node
        return .ok ()
      else return .error .eexist
    | none =>
      if node.leaf then
        let i ← findKeyIndex node key
        let node ← putKeyValue node i key value
        nodeWrite { node with nrKeys := node.nrKeys + 1 }
        return .ok ()
      else
        let i ← findKeyIndex node key
        let block ← getChildVal node i
        match ← nodeRead block with
        | none => return .error .eio
        | some child =>
          if child.isFull then
            match ← nodeCreate with
            | none => return .error .eio
            | some new =>
              let (node, child, new) ← splitChild node child i new
              nodeWrite node
              nodeWrite child
              nodeWrite new
              insertNonfull key value replace fuel node
          else insertNonfull key value replace fuel child

/-- The root split of `nkfs_btree_insert_key`; the root node afterwards. -/
def splitRoot (root : Node) : M (Except Errno Node) := do
  match ← nodeCreate with
  | none => return .error .enomem
  | some clone =>
    if ← nextAlloc then
      match ← nodeCreate with
      | none =>
        let _ ← nodeDelete clone
        return .error .enomem
      | some new2 =>
        let clone ← nodeCopy clone root
        let new ← setChildVal { Node.zero with leaf := false, nrKeys := 0 } 0 clone.block
        let (new, clone, new2) ← splitChild new clone 0 new2
        let root ← nodeCopy root new
        nodeWrite clone
        nodeWrite new2
        nodeWrite root
        return .ok root
    else
      let _ ← nodeDelete clone
      return .error .enomem

/-- Source: `core/btree.c` `nkfs_btree_insert_key` -/
def insertKey (tree : Tree) (key : Key) (value : ℕ) (replace : Bool) : M (Except Errno Unit) := do
  if tree.releasing then return .error .eagain
  else
    let s ← get
    let root ← treeRoot tree
    if root.isFull then
      match ← splitRoot root with
      | .error e => return .error e
      | .ok root => insertNonfull key value replace s.loopBound root
    else insertNonfull key value replace s.loopBound root

/-! ### Lookup -/

/-- Source: `core/btree.c` `nkfs_btree_node_find_key` -/
def nodeFindKey (key : Key) : ℕ → Node → M (Option (Node × ℕ))
  | 0, _ => stop .fuel
  | fuel + 1, node => do
    if node.nrKeys = 0 then return none
    else
      let i ← findKeyIndex node key
      if ← isKeyAt node i key then return some (node, i)
      else if node.leaf then return none
      else
        let block ← getChildVal node i
        match ← nodeRead block with
        | none => stop .bug
        | some child => nodeFindKey key fuel child

/-- Source: `core/btree.c` `nkfs_btree_find_key` -/
def findKey (tree : Tree) (key : Key) : M (Except Errno ℕ) := do
  if tree.releasing then return .error .eagain
  else
    let s ← get
    let root ← treeRoot tree
    match ← nodeFindKey key s.loopBound root with
    | none => return .error .enoent
    | some (found, index) =>
      let value ← nodeValue found index
      return .ok value

/-! ### Deletion -/

/-- The nodes in memory after a key moved from `sib` over `node` to `child`: `node`, `child` and
`sib`. -/
def giveKeySlots (node child : Node) (childIndex : ℕ) (sib : Node) (left : Bool) :
    Except Fault (Node × Node × Node) := do
  if !left then
    let child ← copyKv child child.nrKeys node childIndex
    let node ← copyKv node childIndex sib 0
    let child ← copyChild child (child.nrKeys + 1) sib 0
    let sib ← deleteKeyIndex sib 0
    let sib ← deleteChildIndex sib 0
    return (node, child, sib)
  else
    let child ← putKv child 0 node (childIndex - 1)
    let node ← copyKv node (childIndex - 1) sib (sib.nrKeys - 1)
    let child ← putChild child 0 sib sib.nrKeys
    let sib ← deleteKeyIndex sib (sib.nrKeys - 1)
    let sib ← deleteChildIndex sib sib.nrKeys
    return (node, child, sib)

/-- `child` afterwards. Source: `core/btree.c` `nkfs_btree_node_child_give_key` -/
def childGiveKey (node child : Node) (childIndex : ℕ) (sib : Node) (left : Bool) : M Node := do
  let (node, child, sib) ← giveKeySlots node child childIndex sib left
  let child := { child with nrKeys := child.nrKeys + 1 }
  nodeWrite { sib with nrKeys := sib.nrKeys - 1 }
  nodeWrite child
  nodeWrite node
  return child

/-- The nodes in memory after `src` and key `index` of `node` were merged into `dst`: `node` and
`dst`. -/
def mergeSlots (node : Node) (index : ℕ) (dst src : Node) : Except Fault (Node × Node) := do
  let key ← nodeKey node index
  let value ← nodeValue node index
  let dst ← nodeMerge dst src key value
  let node ← deleteKeyIndex node index
  let node ← deleteChildIndex node (index + 1)
  return ({ node with nrKeys := node.nrKeys - 1 }, dst)

/-- The node to go on with. Source: `core/btree.c` `nkfs_btree_node_child_merge` -/
def childMerge (node child : Node) (childIndex : ℕ) (sib : Node) (left : Bool) : M Node := do
  let (node, merged) ←
    if left then mergeSlots node (childIndex - 1) sib child
    else mergeSlots node childIndex child sib
  nodeWrite merged
  nodeWrite node
  let _ ← nodeDelete (if left then child else sib)
  if node.nrKeys = 0 then
    let node ← nodeCopy node merged
    nodeWrite node
    let _ ← nodeDelete merged
    return node
  else return merged

/-- A child and its neighbours when the child has too few keys.
Source: `core/btree.c` `nkfs_btree_node_child_balance`, the branches of `child->nr_keys < child->t` -/
def childRefill (node child : Node) (childIndex : ℕ) (left right : Option Node) : M Node :=
  match left, right with
  | some left, right =>
    if left.nrKeys ≥ btreeT then childGiveKey node child childIndex left true
    else
      match right with
      | some right =>
        if right.nrKeys ≥ btreeT then childGiveKey node child childIndex right false
        else childMerge node child childIndex left true
      | none => childMerge node child childIndex left true
  | none, some right =>
    if right.nrKeys ≥ btreeT then childGiveKey node child childIndex right false
    else childMerge node child childIndex right false
  | none, none => stop .null

/-- `cond ? nkfs_btree_node_read(tree, nkfs_btree_node_get_child_val(node, index)) : NULL`. -/
def readChildIf (cond : Bool) (node : Node) (index : ℕ) : M (Option Node) := do
  if cond then
    let block ← getChildVal node index
    nodeRead block
  else return none

/-- Source: `core/btree.c` `nkfs_btree_node_child_balance` -/
def childBalance (node : Node) (childIndex : ℕ) : M (Option Node) := do
  if node.leaf then stop .bug
  else
    let block ← getChildVal node childIndex
    match ← nodeRead block with
    | none => return none
    | some child =>
      if child.nrKeys < btreeT then
        let left ← readChildIf (childIndex > 0) node (childIndex - 1)
        let right ← readChildIf (childIndex < node.nrKeys) node (childIndex + 1)
        let next ← childRefill node child childIndex left right
        return some next
      else return some child

/-- The loop of `nkfs_btree_node_find_left_most` (`last`) and `nkfs_btree_node_find_right_most`:
down along the last or the first children to a leaf, whose last or first slot it returns. -/
def findMost (last : Bool) : ℕ → Node → M (Node × ℕ)
  | 0, _ => stop .fuel
  | fuel + 1, curr => do
    if curr.nrKeys = 0 then stop .bug
    else if curr.leaf then return (curr, if last then curr.nrKeys - 1 else 0)
    else
      match ← childBalance curr (if last then curr.nrKeys else 0) with
      | none => stop (if last then .bug else .null)
      | some next => findMost last fuel next

/-- Source: `core/btree.c` `nkfs_btree_node_find_left_most` -/
def findLeftMost (fuel : ℕ) (node : Node) : M (Node × ℕ) := findMost true fuel node

/-- Source: `core/btree.c` `nkfs_btree_node_find_right_most` -/
def findRightMost (fuel : ℕ) (node : Node) : M (Node × ℕ) := findMost false fuel node

/-- The last branch of `nkfs_btree_node_delete_key` for a key of an interior node: both neighbours
are merged around the key. Node and key to go on with. -/
def deleteMerge (node pre suc : Node) (index : ℕ) : M (Node × Key) := do
  let keyIndex := pre.nrKeys
  let (node, pre) ← mergeSlots node index pre suc
  nodeWrite node
  nodeWrite pre
  let _ ← nodeDelete suc
  if node.nrKeys = 0 then
    let node ← nodeCopy node pre
    let _ ← nodeDelete pre
    nodeWrite node
    let key ← nodeKey node keyIndex
    return (node, key)
  else
    let key ← nodeKey pre keyIndex
    return (pre, key)

/-- Source: `core/btree.c` `nkfs_btree_node_delete_key` -/
def nodeDeleteKey : ℕ → Node → Key → M (Except Errno Unit)
  | 0, _, _ => stop .fuel
  | fuel + 1, node, key => do
    match ← hasKey node key with
    | some index =>
      if node.leaf then
        let node ← leafDeleteKey node key
        nodeWrite node
        return .ok ()
      else
        let preBlock ← getChildVal node index
        let preChild ← nodeRead preBlock
        let sucBlock ← getChildVal node (index + 1)
        let sucChild ← nodeRead sucBlock
        match preChild, sucChild with
        | some pre, some suc =>
          if pre.nrKeys ≥ btreeT then
            let (pre, preIndex) ← findLeftMost fuel pre
            let node ← copyKv node index pre preIndex
            nodeWrite node
            let key ← nodeKey pre preIndex
            nodeDeleteKey fuel pre key
          else if suc.nrKeys ≥ btreeT then
            let (suc, sucIndex) ← findRightMost fuel suc
            let node ← copyKv node index suc sucIndex
            nodeWrite node
            let key ← nodeKey suc sucIndex
            nodeDeleteKey fuel suc key
          else
            let (node, key) ← deleteMerge node pre suc index
            nodeDeleteKey fuel node key
        | _, _ => stop .bug
    | none =>
      if node.leaf then return .error .enoent
      else
        let i ← findKeyIndex node key
        match ← childBalance node i with
        | none => stop .null
        | some child => nodeDeleteKey fuel child key

/-- Source: `core/btree.c` `nkfs_btree_delete_key` -/
def deleteKey (tree : Tree) (key : Key) : M (Except Errno Unit) := do
  if tree.releasing then return .error .eagain
  else
    let s ← get
    let root ← treeRoot tree
    nodeDeleteKey s.loopBound root key

/-! ### Erasing a tree -/

/-- A call whose result is dropped. -/
def ignore {α : Type} (x : M α) : M Unit := do
  let _ ← x
  return ()

/-- `if (cond) x`. -/
def runIf (cond : Bool) (x : M Unit) : M Unit := if cond then x else return ()

/-- The children are visited only if the node has keys, as its keys are.
Source: `core/btree.c` `nkfs_btree_erase_node` -/
def eraseNode (keyErase : Key → ℕ → M Unit) : ℕ → Node → M Unit
  | 0, _ => stop .fuel
  | fuel + 1, node => do
    runIf (node.nrKeys ≠ 0 && !node.leaf) ((List.range (node.nrKeys + 1)).forM fun i => do
      let block ← getChildVal node i
      match ← nodeRead block with
      | none => stop .bug
      | some child => eraseNode keyErase fuel child)
    (List.range node.nrKeys).forM fun i => do
      let key ← nodeKey node i
      let value ← nodeValue node i
      keyErase key value
    let _ ← nodeDelete node

/-- The callback of the inode code gives back the block that the value names.
Source: `core/inode.c` `inode_block_erase` -/
def inodeBlockErase (_key : Key) (value : ℕ) : M Unit := do
  let _ ← blockFree value
  return ()

/-- The tree afterwards. Source: `core/btree.c` `nkfs_btree_erase` -/
def btreeErase (tree : Tree) (keyErase : Key → ℕ → M Unit) : M Tree := do
  let s ← get
  let root ← treeRoot tree
  eraseNode keyErase s.loopBound root
  return { tree with releasing := true }

end Nkfs
