import Nkfs.Core.State
import Nkfs.Lib.Slots

/-!
# Functions on B-tree nodes (`core/btree.c`)

The functions of `core/btree.c` that work on nodes in memory, without reading or writing a block.
Every access to a slot carries the test of `nkfs_btree_node_key`, `nkfs_btree_node_value` and
`nkfs_btree_node_child`: an index outside the page array is `Fault.bug`, a missing page
`Fault.null`. Loops over slots are recursions on the number of passes left or done.

For nodes with all their child pages (`Node.AllPages`) and with as many keys as a tree allows, none
of them faults, and each has a closed form: inserting is `Lib.Slots.insertSlot` on the slots,
copying is a range copy (`splitChild_eq`, `nodeCopy_eq`, `deleteKeyIndex_eq`).
On a node with increasing keys both searches find the position of a key (`hasKey_of_mem`,
`hasKey_of_notMem`, `findKeyIndex_spec`).
-/

namespace Nkfs

open Lib.Slots Function

/-! ### Slots -/

/-- Number of key slots of a node. The value slots are at least as many. -/
def keySlots : ℕ := btreeKeyPages * 256

/-- Number of slots of a child page. -/
def childPageSlots : ℕ := 512

/-- Number of child slots of a node. -/
def childSlots : ℕ := btreeChildPages * childPageSlots

/-- Source: `core/btree.c` `nkfs_btree_node_is_full` -/
def Node.isFull (n : Node) : Bool := 2 * btreeT - 1 == n.nrKeys

/-- Key in slot `index`. Source: `core/btree.c` `nkfs_btree_node_key` -/
def nodeKey (n : Node) (index : ℕ) : Except Fault Key :=
  if index < keySlots then .ok (n.kv index).1 else .error .bug

/-- Value in slot `index`. Source: `core/btree.c` `nkfs_btree_node_value` -/
def nodeValue (n : Node) (index : ℕ) : Except Fault ℕ :=
  if index < btreeValuePages * 512 then .ok (n.kv index).2 else .error .bug

/-- The test of `nkfs_btree_node_child`. -/
def childOk (n : Node) (index : ℕ) : Except Fault Unit :=
  if index < childSlots then
    if n.page (index / childPageSlots) then .ok () else .error .null
  else .error .bug

/-- Source: `core/btree.c` `nkfs_btree_node_copy_key_value` -/
def copyKeyValue (dst : Node) (dstIndex : ℕ) (key : Key) (value : ℕ) : Except Fault Node :=
  if dstIndex < keySlots then
    .ok { dst with kv := Function.update dst.kv dstIndex (key, value) }
  else .error .bug

/-- `nkfs_btree_copy_value(nkfs_btree_node_value(dst, dstIndex), value)`. -/
def copyValue (dst : Node) (dstIndex value : ℕ) : Except Fault Node :=
  if dstIndex < btreeValuePages * 512 then
    .ok { dst with kv := Function.update dst.kv dstIndex ((dst.kv dstIndex).1, value) }
  else .error .bug

/-- Source: `core/btree.c` `nkfs_btree_node_copy_kv` -/
def copyKv (dst : Node) (dstIndex : ℕ) (src : Node) (srcIndex : ℕ) : Except Fault Node :=
  if dstIndex < keySlots ∧ srcIndex < keySlots then
    .ok { dst with kv := Function.update dst.kv dstIndex (src.kv srcIndex) }
  else .error .bug

/-- Source: `core/btree.c` `nkfs_btree_node_set_child_val` -/
def setChildVal (dst : Node) (dstIndex val : ℕ) : Except Fault Node := do
  childOk dst dstIndex
  return { dst with child := Function.update dst.child dstIndex val }

/-- Source: `core/btree.c` `nkfs_btree_node_get_child_val` -/
def getChildVal (src : Node) (srcIndex : ℕ) : Except Fault ℕ := do
  childOk src srcIndex
  return src.child srcIndex

/-- Source: `core/btree.c` `nkfs_btree_node_copy_child` -/
def copyChild (dst : Node) (dstIndex : ℕ) (src : Node) (srcIndex : ℕ) : Except Fault Node := do
  childOk src srcIndex
  setChildVal dst dstIndex (src.child srcIndex)

/-- Source: `core/btree.c` `nkfs_btree_node_zero_kv` -/
def zeroKv (dst : Node) (dstIndex : ℕ) : Except Fault Node := copyKeyValue dst dstIndex Key.zero 0

/-! ### Inserting slots -/

/-- `for (i = index + c - 1; i >= index; i--) copy_kv(dst, i + 1, dst, i)`. -/
def shiftKvsUp (dst : Node) (index : ℕ) : ℕ → Except Fault Node
  | 0 => .ok dst
  | c + 1 => do
    let dst ← copyKv dst (index + c + 1) dst (index + c)
    shiftKvsUp dst index c

/-- `for (i = index + c - 1; i >= index; i--) copy_child(dst, i + 1, dst, i)`. -/
def shiftChildrenUp (dst : Node) (index : ℕ) : ℕ → Except Fault Node
  | 0 => .ok dst
  | c + 1 => do
    let dst ← copyChild dst (index + c + 1) dst (index + c)
    shiftChildrenUp dst index c

/-- Source: `core/btree.c` `nkfs_btree_node_put_child_val` -/
def putChildVal (dst : Node) (dstIndex val : ℕ) : Except Fault Node := do
  let dst ← shiftChildrenUp dst dstIndex (dst.nrKeys + 1 - dstIndex)
  setChildVal dst dstIndex val

/-- Source: `core/btree.c` `nkfs_btree_node_put_child` -/
def putChild (dst : Node) (dstIndex : ℕ) (src : Node) (srcIndex : ℕ) : Except Fault Node := do
  let dst ← shiftChildrenUp dst dstIndex (dst.nrKeys + 1 - dstIndex)
  copyChild dst dstIndex src srcIndex

/-- Source: `core/btree.c` `nkfs_btree_node_put_key_value` -/
def putKeyValue (dst : Node) (dstIndex : ℕ) (key : Key) (value : ℕ) : Except Fault Node := do
  let dst ← shiftKvsUp dst dstIndex (dst.nrKeys - dstIndex)
  copyKeyValue dst dstIndex key value

/-- Source: `core/btree.c` `nkfs_btree_node_put_kv` -/
def putKv (dst : Node) (dstIndex : ℕ) (src : Node) (srcIndex : ℕ) : Except Fault Node := do
  let dst ← shiftKvsUp dst dstIndex (dst.nrKeys - dstIndex)
  copyKv dst dstIndex src srcIndex

/-! ### Copying, splitting and merging nodes -/

/-- `for (i = 0; i < c; i++) copy_kv(dst, i, src, i + off)`. -/
def copyKvs (dst src : Node) (off : ℕ) : ℕ → Except Fault Node
  | 0 => .ok dst
  | c + 1 => do
    let dst ← copyKvs dst src off c
    copyKv dst c src (c + off)

/-- `for (i = 0; i < c; i++) copy_child(dst, i, src, i + off)`. -/
def copyChildren (dst src : Node) (off : ℕ) : ℕ → Except Fault Node
  | 0 => .ok dst
  | c + 1 => do
    let dst ← copyChildren dst src off c
    copyChild dst c src (c + off)

/-- `for (i = 0; i < c; i++, pos++) copy_kv(dst, pos, src, i), copy_child(dst, pos, src, i)`. -/
def copySlots (dst src : Node) (pos : ℕ) : ℕ → Except Fault Node
  | 0 => .ok dst
  | c + 1 => do
    let dst ← copySlots dst src pos c
    let dst ← copyKv dst (pos + c) src c
    copyChild dst (pos + c) src c

/-- Source: `core/btree.c` `nkfs_btree_node_copy` -/
def nodeCopy (dst src : Node) : Except Fault Node := do
  let dst ← copySlots dst src 0 src.nrKeys
  let dst ← copyChild dst src.nrKeys src src.nrKeys
  return { dst with nrKeys := src.nrKeys, leaf := src.leaf }

/-- The first part of `nkfs_btree_node_split_child`: the upper half of `child` goes to `new`. -/
def splitFillNew (child new : Node) : Except Fault Node := do
  let new ← copyKvs { new with leaf := child.leaf } child btreeT (btreeT - 1)
  if child.leaf then return { new with nrKeys := btreeT - 1 }
  else copyChildren { new with nrKeys := btreeT - 1 } child btreeT btreeT

/-- The three nodes `node`, `child` and `new` afterwards.
Source: `core/btree.c` `nkfs_btree_node_split_child` -/
def splitChild (node child : Node) (childIndex : ℕ) (new : Node) :
    Except Fault (Node × Node × Node) :=
  if childIndex > node.nrKeys then .error .bug
  else if !child.isFull then .error .bug
  else do
    let new ← splitFillNew child new
    let child := { child with nrKeys := btreeT - 1 }
    let node ← putChildVal node (childIndex + 1) new.block
    let node ← putKv node childIndex child (btreeT - 1)
    return ({ node with nrKeys := node.nrKeys + 1 }, child, new)

/-- Source: `core/btree.c` `nkfs_btree_node_merge` -/
def nodeMerge (dst src : Node) (key : Key) (value : ℕ) : Except Fault Node := do
  let nr := dst.nrKeys
  let dst ← copyKeyValue dst nr key value
  let dst ← copySlots dst src (nr + 1) src.nrKeys
  let dst ← copyChild dst (nr + 1 + src.nrKeys) src src.nrKeys
  return { dst with nrKeys := nr + 1 + src.nrKeys }

/-! ### Removing slots -/

/-- `for (i = index; i < index + c; i++) copy_kv(node, i - 1, node, i)`. -/
def shiftKvsDown (node : Node) (index : ℕ) : ℕ → Except Fault Node
  | 0 => .ok node
  | c + 1 => do
    let node ← shiftKvsDown node index c
    copyKv node (index + c - 1) node (index + c)

/-- Source: `core/btree.c` `__nkfs_btree_node_delete_key_index` -/
def deleteKeyIndex (node : Node) (index : ℕ) : Except Fault Node := do
  if node.nrKeys < 1 then throw .bug
  else
    let node ← shiftKvsDown node (index + 1) (node.nrKeys - (index + 1))
    zeroKv node (max (index + 1) node.nrKeys - 1)

/-- `node->children[dst] = node->children[src]`. The array holds page pointers, so this moves all
slots of a page. -/
def movePage (node : Node) (dst src : ℕ) : Except Fault Node :=
  if dst < btreeChildPages ∧ src < btreeChildPages then
    .ok { node with
      page := Function.update node.page dst (node.page src)
      child := fun j =>
        if j / childPageSlots = dst then node.child (childPageSlots * src + j % childPageSlots)
        else node.child j }
  else .error .oob

/-- `for (i = index; i < index + c; i++) node->children[i - 1] = node->children[i]`. -/
def movePagesDown (node : Node) (index : ℕ) : ℕ → Except Fault Node
  | 0 => .ok node
  | c + 1 => do
    let node ← movePagesDown node index c
    movePage node (index + c - 1) (index + c)

/-- The loop indexes `node->children`, the array of child pages, with child slot numbers.
Source: `core/btree.c` `__nkfs_btree_node_delete_child_index` -/
def deleteChildIndex (node : Node) (index : ℕ) : Except Fault Node := do
  let node ← movePagesDown node (index + 1) (node.nrKeys + 1 - (index + 1))
  let last := max (index + 1) (node.nrKeys + 1) - 1
  if last < btreeChildPages then return { node with page := Function.update node.page last false }
  else throw .oob

/-! ### Searching a node -/

/-- Source: `core/btree.c` `nkfs_btree_node_key_probably_inside` -/
def keyProbablyInside (n : Node) (key : Key) : Except Fault Bool := do
  if n.nrKeys = 0 then return false
  else
    let last ← nodeKey n (n.nrKeys - 1)
    if cmpKey key last = .gt then return false
    else
      let first ← nodeKey n 0
      return cmpKey key first ≠ .lt

/-- The binary search loop: the slot of the key if it was met, and `end`. -/
def searchLoop (n : Node) (key : Key) : ℕ → ℕ → ℕ → Except Fault (Option ℕ × ℕ)
  | 0, _, _ => .error .fuel
  | fuel + 1, start, stop =>
    if start < stop then do
      let mid := (start + stop) / 2
      let midKey ← nodeKey n mid
      match cmpKey key midKey with
      | .eq => return (some mid, stop)
      | .lt => searchLoop n key fuel start mid
      | .gt => searchLoop n key fuel (mid + 1) stop
    else .ok (none, stop)

/-- `none` for -1. Source: `core/btree.c` `nkfs_btree_node_has_key` -/
def hasKey (n : Node) (key : Key) : Except Fault (Option ℕ) := do
  if ← keyProbablyInside n key then
    let (found, _) ← searchLoop n key (n.nrKeys + 1) 0 n.nrKeys
    return found
  else return none

/-- Source: `core/btree.c` `nkfs_btree_node_find_key_index` -/
def findKeyIndex (n : Node) (key : Key) : Except Fault ℕ := do
  if n.nrKeys = 0 then return 0
  else
    let last ← nodeKey n (n.nrKeys - 1)
    if cmpKey key last = .gt then return n.nrKeys
    else
      let first ← nodeKey n 0
      if cmpKey key first = .lt then return 0
      else
        let (found, stop) ← searchLoop n key (n.nrKeys + 1) 0 n.nrKeys
        return found.getD stop

/-- `i < node->nr_keys && !nkfs_btree_cmp_key(key, nkfs_btree_node_key(node, i))`. -/
def isKeyAt (n : Node) (i : ℕ) (key : Key) : Except Fault Bool := do
  if i < n.nrKeys then
    let k ← nodeKey n i
    return cmpKey key k == .eq
  else return false

/-- Source: `core/btree.c` `nkfs_btree_node_leaf_delete_key` -/
def leafDeleteKey (n : Node) (key : Key) : Except Fault Node := do
  if !n.leaf then throw .bug
  else
    match ← hasKey n key with
    | none => throw .bug
    | some index =>
      if index ≥ n.nrKeys then throw .bug
      else
        let n ← deleteKeyIndex n index
        return { n with nrKeys := n.nrKeys - 1 }

/-! ### Closed forms -/

/-- Every child page is there. -/
def Node.AllPages (n : Node) : Prop := ∀ p, n.page p = true

/-- Key in slot `i`. -/
def Node.key (n : Node) (i : ℕ) : Key := (n.kv i).1

/-! ### Slots -/

section slots

variable {dst src n : Node} {di si i : ℕ}

lemma copyKv_eq (hd : di < keySlots) (hs : si < keySlots) : copyKv dst di src si =
    .ok { dst with kv := update dst.kv di (src.kv si) } := if_pos ⟨hd, hs⟩

lemma copyKeyValue_eq {key : Key} {value : ℕ} (hd : di < keySlots) : copyKeyValue dst di key value =
      .ok { dst with kv := update dst.kv di (key, value) } := if_pos hd

lemma childOk_eq (hp : n.AllPages) (hi : i < childSlots) : childOk n i = .ok () := by
  rw [childOk, if_pos hi, if_pos (hp _)]

lemma setChildVal_eq {val : ℕ} (hp : dst.AllPages) (hd : di < childSlots) :
    setChildVal dst di val = .ok { dst with child := update dst.child di val } := by
  rw [setChildVal, childOk_eq hp hd]
  rfl

lemma getChildVal_eq (hp : n.AllPages) (hi : i < childSlots) : getChildVal n i = .ok (n.child i) := by
  rw [getChildVal, childOk_eq hp hi]
  rfl

lemma copyChild_eq (hpd : dst.AllPages) (hps : src.AllPages) (hd : di < childSlots)
    (hs : si < childSlots) : copyChild dst di src si =
      .ok { dst with child := update dst.child di (src.child si) } := by
  rw [copyChild, childOk_eq hps hs, setChildVal_eq hpd hd]
  rfl

end slots

/-! ### Inserting slots -/

/-- One more pass of a loop that moves slots up, its first. -/
lemma shift_update {β : Type} (s : ℕ → β) (i c : ℕ) :
    (fun j => if i < j ∧ j ≤ i + c then update s (i + c + 1) (s (i + c)) (j - 1)
      else update s (i + c + 1) (s (i + c)) j) =
      fun j => if i < j ∧ j ≤ i + (c + 1) then s (j - 1) else s j := by
  funext j
  by_cases hj : j = i + c + 1
  · subst hj
    rw [if_neg (by omega), if_pos (by omega), update_self, Nat.add_sub_cancel]
  · by_cases hin : i < j ∧ j ≤ i + c
    · rw [if_pos hin, if_pos (by omega), update_of_ne (by omega)]
    · rw [if_neg hin, if_neg (by omega), update_of_ne hj]

lemma shift_zero {β : Type} (s : ℕ → β) (i : ℕ) :
    (fun j => if i < j ∧ j ≤ i + 0 then s (j - 1) else s j) = s :=
  funext fun j => if_neg (by omega)

lemma shiftKvsUp_eq (index : ℕ) : ∀ (c : ℕ) (dst : Node), index + c < keySlots →
    shiftKvsUp dst index c = .ok { dst with
      kv := fun j => if index < j ∧ j ≤ index + c then dst.kv (j - 1) else dst.kv j }
  | 0, dst, _ => by rw [shiftKvsUp, shift_zero]
  | c + 1, dst, h => by
    rw [shiftKvsUp, copyKv_eq (show index + c + 1 < keySlots from h) (by omega), ← shift_update]
    exact shiftKvsUp_eq index c _ (by omega)

lemma shiftChildrenUp_eq (index : ℕ) : ∀ (c : ℕ) (dst : Node), dst.AllPages →
    index + c < childSlots → shiftChildrenUp dst index c = .ok { dst with
      child := fun j => if index < j ∧ j ≤ index + c then dst.child (j - 1) else dst.child j }
  | 0, dst, _, _ => by rw [shiftChildrenUp, shift_zero]
  | c + 1, dst, hp, h => by
    rw [shiftChildrenUp, copyChild_eq hp hp (show index + c + 1 < childSlots from h) (by omega),
      ← shift_update]
    exact shiftChildrenUp_eq index c _ (by exact hp) (by omega)

/-- Moving slots up and writing the freed one is `insertSlot`. -/
lemma update_shift {β : Type} (s : ℕ → β) {i n : ℕ} (h : i ≤ n) (x : β) :
    update (fun j => if i < j ∧ j ≤ i + (n - i) then s (j - 1) else s j) i x =
      insertSlot s i n x := by
  funext j
  unfold insertSlot
  by_cases hji : j = i
  · rw [hji, update_self, if_neg (lt_irrefl i), if_pos rfl]
  · rw [update_of_ne hji]
    by_cases hlt : j < i
    · rw [if_neg (by omega), if_pos hlt]
    · rw [if_neg hlt, if_neg hji]
      exact if_congr (by omega) rfl rfl

section insert

variable {dst src : Node} {i si : ℕ}

lemma putKeyValue_eq {key : Key} {value : ℕ} (hi : i ≤ dst.nrKeys) (h : dst.nrKeys < keySlots) :
    putKeyValue dst i key value = .ok { dst with kv := insertSlot dst.kv i dst.nrKeys (key, value) } := by
  rw [putKeyValue, shiftKvsUp_eq i _ dst (by omega), ← update_shift dst.kv hi]
  exact copyKeyValue_eq (by omega)

lemma putKv_eq (dst src : Node) (hi : i ≤ dst.nrKeys) (h : dst.nrKeys < keySlots) (hs : si < keySlots) :
    putKv dst i src si = .ok { dst with kv := insertSlot dst.kv i dst.nrKeys (src.kv si) } := by
  rw [putKv, shiftKvsUp_eq i _ dst (by omega), ← update_shift dst.kv hi]
  exact copyKv_eq (by omega) hs

lemma putChildVal_eq {val : ℕ} (hp : dst.AllPages) (hi : i ≤ dst.nrKeys + 1)
    (h : dst.nrKeys + 1 < childSlots) : putChildVal dst i val =
      .ok { dst with child := insertSlot dst.child i (dst.nrKeys + 1) val } := by
  rw [putChildVal, shiftChildrenUp_eq i _ dst hp (by omega), ← update_shift dst.child hi]
  exact setChildVal_eq (by exact hp) (by omega)

end insert

/-! ### Copying and splitting -/

lemma copyKvs_eq (dst src : Node) (off : ℕ) : ∀ c, c + off ≤ keySlots → copyKvs dst src off c =
      .ok { dst with kv := fun j => if j < c then src.kv (j + off) else dst.kv j }
  | 0, _ => by simp [copyKvs]
  | c + 1, h => by
    rw [copyKvs, copyKvs_eq dst src off c (by omega)]
    refine (copyKv_eq (show c < keySlots by omega) (show c + off < keySlots by omega)).trans ?_
    congr 2
    funext j
    by_cases hj : j = c
    · rw [hj, update_self, if_pos c.lt_succ_self]
    · rw [update_of_ne hj]
      exact if_congr (by omega) rfl rfl

lemma copyChildren_eq {dst src : Node} (hpd : dst.AllPages) (hps : src.AllPages) (off : ℕ) :
    ∀ c, c + off ≤ childSlots → copyChildren dst src off c =
      .ok { dst with child := fun j => if j < c then src.child (j + off) else dst.child j }
  | 0, _ => by simp [copyChildren]
  | c + 1, h => by
    rw [copyChildren, copyChildren_eq hpd hps off c (by omega)]
    refine (copyChild_eq (by exact hpd) hps (show c < childSlots by omega)
      (show c + off < childSlots by omega)).trans ?_
    congr 2
    funext j
    by_cases hj : j = c
    · rw [hj, update_self, if_pos c.lt_succ_self]
    · rw [update_of_ne hj]
      exact if_congr (by omega) rfl rfl

lemma copySlots_eq {dst src : Node} (hpd : dst.AllPages) (hps : src.AllPages) (pos : ℕ) :
    ∀ c, pos + c ≤ keySlots → copySlots dst src pos c = .ok { dst with
      kv := fun j => if pos ≤ j ∧ j < pos + c then src.kv (j - pos) else dst.kv j
      child := fun j => if pos ≤ j ∧ j < pos + c then src.child (j - pos) else dst.child j }
  | 0, _ => by
    have hno : ∀ j, ¬ (pos ≤ j ∧ j < pos + 0) := fun j => by omega
    simp only [copySlots, hno, if_false]
  | c + 1, h => by
    have hslots : keySlots ≤ childSlots := by decide
    rw [copySlots, copySlots_eq hpd hps pos c (by omega)]
    show (do
      let d ← copyKv _ (pos + c) src c
      copyChild d (pos + c) src c : Except Fault Node) = _
    rw [copyKv_eq (by omega) (by omega)]
    refine (copyChild_eq (by exact hpd) hps (show pos + c < childSlots by omega)
      (show c < childSlots by omega)).trans ?_
    have hupd : ∀ {β : Type} (s d : ℕ → β),
        update (fun j => if pos ≤ j ∧ j < pos + c then s (j - pos) else d j) (pos + c)
          (s c) = fun j => if pos ≤ j ∧ j < pos + (c + 1) then s (j - pos) else d j := by
      intro β s d
      funext j
      by_cases hj : j = pos + c
      · rw [hj, update_self, if_pos (by omega), Nat.add_sub_cancel_left]
      · rw [update_of_ne hj]
        exact if_congr (by omega) rfl rfl
    rw [hupd, hupd]

attribute [irreducible] shiftKvsUp shiftChildrenUp copyKvs copyChildren copySlots

/-- The slots of `src` over those of `dst`, up to its number of keys. -/
lemma nodeCopy_eq {dst src : Node} (hpd : dst.AllPages) (hps : src.AllPages)
    (h : src.nrKeys < keySlots) : nodeCopy dst src = .ok { dst with
      leaf := src.leaf
      nrKeys := src.nrKeys
      kv := fun j => if j < src.nrKeys then src.kv j else dst.kv j
      child := fun j => if j ≤ src.nrKeys then src.child j else dst.child j } := by
  have hslots : keySlots ≤ childSlots := by decide
  have hchild : update (fun j => if 0 ≤ j ∧ j < 0 + src.nrKeys then src.child (j - 0)
      else dst.child j) src.nrKeys (src.child src.nrKeys) =
      fun j => if j ≤ src.nrKeys then src.child j else dst.child j := by
    funext j
    by_cases hj : j = src.nrKeys
    · rw [hj, update_self, if_pos le_rfl]
    · rw [update_of_ne hj]
      exact if_congr (by omega) rfl rfl
  have hkv : (fun j => if 0 ≤ j ∧ j < 0 + src.nrKeys then src.kv (j - 0) else dst.kv j) =
      fun j => if j < src.nrKeys then src.kv j else dst.kv j :=
    funext fun j => if_congr (by omega) rfl rfl
  rw [nodeCopy, copySlots_eq hpd hps 0 _ (by omega), hkv]
  show (do
    let d ← copyChild _ src.nrKeys src src.nrKeys
    return { d with nrKeys := src.nrKeys, leaf := src.leaf } : Except Fault Node) = _
  rw [copyChild_eq (by exact hpd) hps (by omega) (by omega), hchild]
  rfl

/-- `new` after a split: the upper `T - 1` keys of the child, and its upper `T` children unless it
is a leaf. -/
def splitNew (child new : Node) : Node :=
  { new with
    leaf := child.leaf
    nrKeys := btreeT - 1
    kv := fun j => if j < btreeT - 1 then child.kv (j + btreeT) else new.kv j
    child := if child.leaf then new.child
      else fun j => if j < btreeT then child.child (j + btreeT) else new.child j }

/-- The parent after a split: the middle key of the child at `i` and the new node right of it. -/
def splitNode (node child : Node) (i : ℕ) (new : Node) : Node :=
  { node with
    nrKeys := node.nrKeys + 1
    kv := insertSlot node.kv i node.nrKeys (child.kv (btreeT - 1))
    child := insertSlot node.child (i + 1) (node.nrKeys + 1) new.block }

lemma splitFillNew_eq {child new : Node} (hpc : child.AllPages) (hpw : new.AllPages) :
    splitFillNew child new = .ok (splitNew child new) := by
  have hT : btreeT = 896 := rfl
  have hks : keySlots = 1792 := rfl
  have hcs : childSlots = 2048 := rfl
  rw [splitFillNew, copyKvs_eq _ _ _ _ (by omega)]
  cases hl : child.leaf with
  | true =>
    rw [splitNew, hl]
    rfl
  | false =>
    refine (copyChildren_eq (by exact hpw) hpc _ _ (by omega)).trans ?_
    rw [splitNew, hl]
    rfl

lemma splitChild_eq (node child new : Node) {i : ℕ} (hpn : node.AllPages) (hpc : child.AllPages)
    (hpw : new.AllPages) (hi : i ≤ node.nrKeys) (hn : node.nrKeys < 2 * btreeT - 1)
    (hc : child.nrKeys = 2 * btreeT - 1) : splitChild node child i new =
      .ok (splitNode node child i new, { child with nrKeys := btreeT - 1 }, splitNew child new) := by
  have hT : btreeT = 896 := rfl
  have hks : keySlots = 1792 := rfl
  have hcs : childSlots = 2048 := rfl
  have hfull : child.isFull = true := by rw [Node.isFull, hc, beq_self_eq_true]
  rw [splitChild, if_neg (not_lt.mpr hi), hfull, Bool.not_true, if_neg Bool.false_ne_true,
    splitFillNew_eq hpc hpw]
  show (do
    let d ← putChildVal node (i + 1) new.block
    let d ← putKv d i { child with nrKeys := btreeT - 1 } (btreeT - 1)
    return ({ d with nrKeys := d.nrKeys + 1 }, { child with nrKeys := btreeT - 1 },
      splitNew child new) : Except Fault (Node × Node × Node)) = _
  rw [putChildVal_eq hpn (by omega) (by omega)]
  refine (congrArg (fun d => d >>= fun d => pure ({ d with nrKeys := d.nrKeys + 1 },
    { child with nrKeys := btreeT - 1 }, splitNew child new))
    (putKv_eq { node with child := insertSlot node.child (i + 1) (node.nrKeys + 1) new.block }
      { child with nrKeys := btreeT - 1 } hi (show node.nrKeys < keySlots by omega)
      (show btreeT - 1 < keySlots by omega))).trans ?_
  rfl

/-- Merging two nodes that fit into one does not fault. -/
lemma nodeMerge_ok {dst src : Node} (hpd : dst.AllPages) (hps : src.AllPages) (key : Key)
    (value : ℕ) (h : dst.nrKeys + 1 + src.nrKeys < keySlots) :
    ∃ m, nodeMerge dst src key value = .ok m ∧ m.block = dst.block ∧ m.AllPages := by
  have hslots : keySlots ≤ childSlots := by decide
  obtain ⟨d₁, h₁, hb₁, hp₁⟩ : ∃ d, copyKeyValue dst dst.nrKeys key value = .ok d ∧
      d.block = dst.block ∧ d.AllPages := ⟨_, copyKeyValue_eq (by omega), rfl, hpd⟩
  obtain ⟨d₂, h₂, hb₂, hp₂⟩ : ∃ d, copySlots d₁ src (dst.nrKeys + 1) src.nrKeys = .ok d ∧
      d.block = d₁.block ∧ d.AllPages := ⟨_, copySlots_eq hp₁ hps _ _ (by omega), rfl, hp₁⟩
  obtain ⟨d₃, h₃, hb₃, hp₃⟩ : ∃ d, copyChild d₂ (dst.nrKeys + 1 + src.nrKeys) src src.nrKeys = .ok d ∧
      d.block = d₂.block ∧ d.AllPages := ⟨_, copyChild_eq hp₂ hps (by omega) (by omega), rfl, hp₂⟩
  refine ⟨{ d₃ with nrKeys := dst.nrKeys + 1 + src.nrKeys }, ?_, ?_, hp₃⟩
  · simp only [nodeMerge, h₁, h₂, h₃, bind, Except.bind, pure, Except.pure]
  · rw [← hb₁, ← hb₂]
    exact hb₃

/-! ### Removing slots -/

/-- One more pass of a loop that moves slots down, its last. -/
lemma shiftKvsDown_eq (node : Node) (i : ℕ) : ∀ c, i + 1 + c ≤ keySlots →
    shiftKvsDown node (i + 1) c = .ok { node with
      kv := fun j => if i ≤ j ∧ j < i + c then node.kv (j + 1) else node.kv j }
  | 0, _ => by
    have hkv : (fun j => if i ≤ j ∧ j < i + 0 then node.kv (j + 1) else node.kv j) = node.kv :=
      funext fun j => if_neg (by omega)
    rw [shiftKvsDown, hkv]
  | c + 1, h => by
    rw [shiftKvsDown, shiftKvsDown_eq node i c (by omega)]
    refine (copyKv_eq (show i + 1 + c - 1 < keySlots by omega) (show i + 1 + c < keySlots by omega)).trans ?_
    congr 2
    funext j
    by_cases hj : j = i + c
    · rw [hj, show i + 1 + c - 1 = i + c by omega, update_self, if_pos (by omega)]
      exact (if_neg (by omega)).trans (congrArg node.kv (by omega))
    · rw [update_of_ne (by omega)]
      exact if_congr (by omega) rfl rfl

lemma deleteKeyIndex_eq {node : Node} {i : ℕ} (hi : i < node.nrKeys) (h : node.nrKeys ≤ keySlots) :
    deleteKeyIndex node i = .ok { node with
      kv := update (removeSlot node.kv i node.nrKeys) (node.nrKeys - 1) (Key.zero, 0) } := by
  have hkv : (fun j => if i ≤ j ∧ j < i + (node.nrKeys - (i + 1)) then node.kv (j + 1)
      else node.kv j) = removeSlot node.kv i node.nrKeys := by
    funext j
    unfold removeSlot
    by_cases hj : j < i
    · rw [if_pos hj, if_neg (by omega)]
    · rw [if_neg hj]
      exact if_congr (by omega) rfl rfl
  rw [deleteKeyIndex, if_neg (by omega), shiftKvsDown_eq node i _ (by omega), hkv]
  refine (copyKeyValue_eq (show max (i + 1) node.nrKeys - 1 < keySlots by omega)).trans ?_
  rw [show max (i + 1) node.nrKeys - 1 = node.nrKeys - 1 by omega]

/-! ### Removing a child -/

lemma movePage_error {node : Node} {d s : ℕ} {e : Fault} (h : movePage node d s = .error e) : e = .oob := by
  unfold movePage at h
  split_ifs at h
  · exact (Except.error.inj h).symm

lemma movePage_nrKeys {node node' : Node} {d s : ℕ} (h : movePage node d s = .ok node') :
    node'.nrKeys = node.nrKeys ∧ node'.block = node.block := by
  unfold movePage at h
  split_ifs at h
  · rw [← Except.ok.inj h]
    exact ⟨rfl, rfl⟩

lemma movePagesDown_error {node : Node} {i : ℕ} {e : Fault} : ∀ {c : ℕ},
    movePagesDown node i c = .error e → e = .oob
  | 0, h => nomatch h
  | c + 1, h => by
    rw [movePagesDown] at h
    cases hc : movePagesDown node i c with
    | error e' =>
      rw [hc] at h
      rw [← Except.error.inj h]
      exact movePagesDown_error hc
    | ok node' =>
      rw [hc] at h
      exact movePage_error h

lemma movePagesDown_nrKeys {node : Node} {i : ℕ} : ∀ {c : ℕ} {node' : Node},
    movePagesDown node i c = .ok node' → node'.nrKeys = node.nrKeys ∧ node'.block = node.block
  | 0, node', h => by
    rw [← Except.ok.inj h]
    exact ⟨rfl, rfl⟩
  | c + 1, node', h => by
    rw [movePagesDown] at h
    cases hc : movePagesDown node i c with
    | error e' =>
      rw [hc] at h
      cases h
    | ok node'' =>
      rw [hc] at h
      obtain ⟨hnr, hb⟩ := movePagesDown_nrKeys hc
      obtain ⟨hnr', hb'⟩ := movePage_nrKeys h
      exact ⟨hnr'.trans hnr, hb'.trans hb⟩

/-- Removing a child either leaves the array of page pointers or clears one of its entries. -/
lemma deleteChildIndex_cases {node : Node} {i : ℕ} (hi : i ≤ node.nrKeys) :
    deleteChildIndex node i = .error .oob ∨
      ∃ node', deleteChildIndex node i = .ok node' ∧ node'.page node.nrKeys = false ∧
        node.nrKeys < btreeChildPages ∧ node'.block = node.block := by
  rw [deleteChildIndex]
  cases hmove : movePagesDown node (i + 1) (node.nrKeys + 1 - (i + 1)) with
  | error e => exact Or.inl (congrArg Except.error (movePagesDown_error hmove))
  | ok n =>
    obtain ⟨hnr, hb⟩ := movePagesDown_nrKeys hmove
    have hlast : max (i + 1) (n.nrKeys + 1) - 1 = node.nrKeys := by omega
    show (if max (i + 1) (n.nrKeys + 1) - 1 < btreeChildPages then _ else _) = _ ∨
      ∃ node', (if max (i + 1) (n.nrKeys + 1) - 1 < btreeChildPages then _ else _) = _ ∧ _
    rw [hlast]
    by_cases hlt : node.nrKeys < btreeChildPages
    · rw [if_pos hlt]
      exact Or.inr ⟨_, rfl, update_self .., hlt, hb⟩
    · rw [if_neg hlt]
      exact Or.inl rfl

/-! ### Searching -/

/-- The keys of a node increase. -/
def Node.Increasing (n : Node) : Prop := ∀ i j, i < j → j < n.nrKeys → n.key i < n.key j

/-- `i` keys of the node are below `k`. -/
structure Node.IsRank (n : Node) (k : Key) (i : ℕ) : Prop where
  le : i ≤ n.nrKeys
  below : ∀ j < i, n.key j < k
  above : ∀ j, i ≤ j → j < n.nrKeys → k ≤ n.key j

section search

variable {n : Node} {k : Key} {i : ℕ}

lemma nodeKey_eq (hi : i < keySlots) : nodeKey n i = .ok (n.key i) := if_pos hi

lemma isKeyAt_eq (hnr : n.nrKeys ≤ keySlots) : isKeyAt n i k = .ok (decide (i < n.nrKeys ∧ n.key i = k)) := by
  unfold isKeyAt
  by_cases hi : i < n.nrKeys
  · rw [if_pos hi, nodeKey_eq (hi.trans_le hnr)]
    refine congrArg Except.ok ?_
    rw [Bool.eq_iff_iff, decide_eq_true_iff, beq_iff_eq, cmpKey_eq_iff]
    exact ⟨fun h => ⟨hi, h.symm⟩, fun h => h.2.symm⟩
  · rw [if_neg hi, decide_eq_false fun h => hi h.1]
    rfl

lemma Node.Increasing.injective (hn : n.Increasing) {i j : ℕ} (hi : i < n.nrKeys)
    (hj : j < n.nrKeys) (h : n.key i = n.key j) : i = j := by
  rcases lt_trichotomy i j with hlt | heq | hgt
  · exact absurd h (hn i j hlt hj).ne
  · exact heq
  · exact absurd h (hn j i hgt hi).ne'

/-- What the loop returns while the key can only be in `start .. stop - 1`. -/
lemma searchLoop_spec (hn : n.Increasing) (hnr : n.nrKeys ≤ keySlots) : ∀ (fuel start stop : ℕ),
    start ≤ stop → stop ≤ n.nrKeys → stop - start < fuel → (∀ j < start, n.key j < k) →
    (∀ j, stop ≤ j → j < n.nrKeys → k < n.key j) →
    ∃ r, searchLoop n k fuel start stop = .ok r ∧ ((∃ i < n.nrKeys, r.1 = some i ∧ n.key i = k) ∨
        (r.1 = none ∧ n.IsRank k r.2 ∧ ∀ j < n.nrKeys, n.key j ≠ k))
  | 0, _, _, _, _, hf, _, _ => absurd hf (Nat.not_lt_zero _)
  | fuel + 1, start, stop, hle, hstop, hf, hlow, hhigh => by
    rw [searchLoop]
    by_cases hlt : start < stop
    · have hmid : (start + stop) / 2 < stop := by omega
      have hmid' : start ≤ (start + stop) / 2 := by omega
      rw [if_pos hlt]
      dsimp only
      rw [nodeKey_eq (show (start + stop) / 2 < keySlots by omega)]
      show ∃ r, (match cmpKey k (n.key ((start + stop) / 2)) with
        | .eq => _ | .lt => _ | .gt => _) = Except.ok r ∧ _
      cases hc : cmpKey k (n.key ((start + stop) / 2)) with
      | eq =>
        exact ⟨_, rfl, Or.inl ⟨_, by omega, rfl, (cmpKey_eq_iff.mp hc).symm⟩⟩
      | lt =>
        refine searchLoop_spec hn hnr fuel start _ hmid' (by omega) (by omega) hlow ?_
        intro j hj hjn
        rcases hj.lt_or_eq with hj | rfl
        · exact (cmpKey_lt_iff.mp hc).trans (hn _ j hj hjn)
        · exact cmpKey_lt_iff.mp hc
      | gt =>
        refine searchLoop_spec hn hnr fuel _ stop (by omega) hstop (by omega) ?_ hhigh
        intro j hj
        rcases (Nat.lt_succ_iff.mp hj).lt_or_eq with hj | rfl
        · exact (hn j _ hj (by omega)).trans (cmpKey_gt_iff.mp hc)
        · exact cmpKey_gt_iff.mp hc
    · have heq : start = stop := by omega
      subst heq
      rw [if_neg (lt_irrefl start)]
      refine ⟨_, rfl, Or.inr ⟨rfl, ⟨hstop, hlow, fun j hj hjn => (hhigh j hj hjn).le⟩, ?_⟩⟩
      intro j hj
      rcases lt_or_ge j start with hjs | hjs
      · exact (hlow j hjs).ne
      · exact (hhigh j hjs hj).ne'

lemma hasKey_of_mem (hn : n.Increasing) (hnr : n.nrKeys ≤ keySlots) (hi : i < n.nrKeys)
    (hk : n.key i = k) : hasKey n k = .ok (some i) := by
  have hinside : keyProbablyInside n k = .ok true := by
    have hlast : cmpKey k (n.key (n.nrKeys - 1)) ≠ .gt := by
      rw [Ne, cmpKey_gt_iff, ← hk, not_lt]
      rcases (Nat.le_sub_one_of_lt hi).lt_or_eq with hlt | heq
      · exact (hn i _ hlt (by omega)).le
      · exact (congrArg n.key heq).le
    have hfirst : cmpKey k (n.key 0) ≠ .lt := by
      rw [Ne, cmpKey_lt_iff, ← hk, not_lt]
      rcases (Nat.zero_le i).lt_or_eq with hlt | heq
      · exact (hn 0 i hlt hi).le
      · exact (congrArg n.key heq).le
    rw [keyProbablyInside, if_neg (by omega), nodeKey_eq (by omega)]
    show (if cmpKey k (n.key (n.nrKeys - 1)) = .gt then _ else _) = _
    rw [if_neg hlast, nodeKey_eq (by omega)]
    exact congrArg Except.ok (decide_eq_true hfirst)
  obtain ⟨⟨found, stop⟩, hr, ⟨j, hj, hjf, hjk⟩ | ⟨-, -, hno⟩⟩ := searchLoop_spec (k := k) hn hnr
    (n.nrKeys + 1) 0 n.nrKeys (Nat.zero_le _) le_rfl (by omega)
    (fun j hj => absurd hj (Nat.not_lt_zero j)) (fun j hj hjn => absurd hj (by omega))
  · have hij : j = i := hn.injective hj hi (hjk.trans hk.symm)
    subst hij
    dsimp only at hjf
    subst hjf
    simp only [hasKey, hinside, hr, bind, Except.bind, if_true]
    rfl
  · exact absurd hk (hno i hi)

lemma hasKey_of_notMem (hn : n.Increasing) (hnr : n.nrKeys ≤ keySlots)
    (hk : ∀ i < n.nrKeys, n.key i ≠ k) : hasKey n k = .ok none := by
  obtain ⟨b, hb⟩ : ∃ b, keyProbablyInside n k = .ok b := by
    rw [keyProbablyInside]
    by_cases h0 : n.nrKeys = 0
    · exact ⟨_, if_pos h0⟩
    · rw [if_neg h0, nodeKey_eq (by omega)]
      show ∃ b, (if cmpKey k (n.key (n.nrKeys - 1)) = .gt then _ else _) = Except.ok b
      by_cases hgt : cmpKey k (n.key (n.nrKeys - 1)) = .gt
      · exact ⟨_, if_pos hgt⟩
      · rw [if_neg hgt, nodeKey_eq (by omega)]
        exact ⟨_, rfl⟩
  cases b with
  | false =>
    simp only [hasKey, hb, bind, Except.bind, Bool.false_eq_true, if_false]
    rfl
  | true =>
    obtain ⟨⟨found, stop⟩, hr, ⟨j, hj, -, hjk⟩ | ⟨hnone, -, -⟩⟩ := searchLoop_spec (k := k) hn hnr
      (n.nrKeys + 1) 0 n.nrKeys (Nat.zero_le _) le_rfl (by omega)
      (fun j hj => absurd hj (Nat.not_lt_zero j)) (fun j hj hjn => absurd hj (by omega))
    · exact absurd hjk (hk j hj)
    · dsimp only at hnone
      subst hnone
      simp only [hasKey, hb, hr, bind, Except.bind, if_true]
      rfl

/-- `nkfs_btree_node_find_key_index` returns the number of keys below the key. -/
lemma findKeyIndex_spec (hn : n.Increasing) (hnr : n.nrKeys ≤ keySlots) (k : Key) :
    ∃ i, findKeyIndex n k = .ok i ∧ n.IsRank k i := by
  rw [findKeyIndex]
  by_cases h0 : n.nrKeys = 0
  · rw [if_pos h0]
    exact ⟨0, rfl, Nat.zero_le _, fun j hj => absurd hj (Nat.not_lt_zero j),
      fun j _ hj => absurd hj (by omega)⟩
  · rw [if_neg h0, nodeKey_eq (by omega)]
    show ∃ i, (if cmpKey k (n.key (n.nrKeys - 1)) = .gt then _ else _) = Except.ok i ∧ _
    by_cases hgt : cmpKey k (n.key (n.nrKeys - 1)) = .gt
    · rw [if_pos hgt]
      refine ⟨n.nrKeys, rfl, le_rfl, fun j hj => ?_, fun j hj hjn => absurd hj (by omega)⟩
      rcases (Nat.le_sub_one_of_lt hj).lt_or_eq with hlt | rfl
      · exact (hn j _ hlt (by omega)).trans (cmpKey_gt_iff.mp hgt)
      · exact cmpKey_gt_iff.mp hgt
    · rw [if_neg hgt, nodeKey_eq (by omega)]
      show ∃ i, (if cmpKey k (n.key 0) = .lt then _ else _) = Except.ok i ∧ _
      by_cases hlt : cmpKey k (n.key 0) = .lt
      · rw [if_pos hlt]
        refine ⟨0, rfl, Nat.zero_le _, fun j hj => absurd hj (Nat.not_lt_zero j), fun j _ hj => ?_⟩
        rcases (Nat.zero_le j).lt_or_eq with hj0 | rfl
        · exact ((cmpKey_lt_iff.mp hlt).trans (hn 0 j hj0 hj)).le
        · exact (cmpKey_lt_iff.mp hlt).le
      · rw [if_neg hlt]
        obtain ⟨⟨found, stop⟩, hr, ⟨j, hj, hjf, hjk⟩ | ⟨hnone, hrank, -⟩⟩ :=
          searchLoop_spec (k := k) hn hnr (n.nrKeys + 1) 0 n.nrKeys (Nat.zero_le _) le_rfl (by omega)
            (fun j hj => absurd hj (Nat.not_lt_zero j)) (fun j hj hjn => absurd hj (by omega))
        · dsimp only at hjf
          subst hjf
          rw [hr]
          refine ⟨j, rfl, hj.le, fun l hl => ?_, fun l hl hln => ?_⟩
          · rw [← hjk]
            exact hn l j hl hj
          · rw [← hjk]
            rcases hl.lt_or_eq with hl | rfl
            · exact (hn j l hl hln).le
            · exact le_rfl
        · dsimp only at hnone
          subst hnone
          rw [hr]
          exact ⟨stop, rfl, hrank⟩

end search

end Nkfs
