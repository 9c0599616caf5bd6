import Nkfs.Object.System

/-!
# Formatting a device, creating and deleting objects

A new object has an inode block and two empty trees; where one of its allocations fails, what was
taken is given back (`inodeCreate_spec`). Deleting an inode gives back every block of the object
(`inodeDelete_spec`). `sbCreateObj_spec` and `sbDeleteObj_spec` say what the two requests do to a
device in order, and `sbFormat_spec` that a formatted device is in order.
-/

namespace Nkfs

open Lib.Bytes Lib.Program Lib.Assoc List

/-! ### Deleting an inode -/

/-- The tree behind a pointer of an inode, with the blocks that erasing it gives back. -/
def Erasable (s : Sb) : Option Tree → List ℕ → Prop
  | none, xs => xs = []
  | some t, xs => ∃ v : TreeView, v.Ok s ∧ v.tree = t ∧ v.held = xs

section delete

variable {s s' : Sb} {xs ys bs fresh : List ℕ} {p : Option Tree}

lemma Erasable.freed (h : Erasable s p xs) (hst : FreeStep s s' ys) (hdis : ∀ x ∈ xs, x ∉ ys)
    (hz : 0 ∉ ys) : Erasable s' p xs := by
  cases p with
  | none => exact h
  | some t =>
    obtain ⟨v, hok, ht, rfl⟩ := h
    exact ⟨v, hst.isTree hok (fun x hx => hdis x (mem_append_left _ hx)) hz, ht, rfl⟩

lemma eraseTree_spec (h : Erasable s p xs) (hnd : xs.Nodup) (ho : ∀ x ∈ xs, s.Owned x) :
    Runs (eraseTree p) s fun _ s' => FreeStep s s' xs := by
  cases p with
  | none =>
    obtain rfl : xs = [] := h
    exact Runs.pure (FreeStep.refl s)
  | some t =>
    obtain ⟨v, hok, rfl, rfl⟩ := h
    refine Runs.bind (btreeErase_run (t := v.tree) hok hnd ho) ?_
    rintro t' s' ⟨-, hst⟩
    exact Runs.pure hst

/-- **Deleting an inode** gives back its block and the blocks of its trees, each of them once. -/
theorem inodeDelete_spec {inode : Inode} (hread : inode.readers = 0)
    (hdata : Erasable s inode.blocksTree xs) (hsum : Erasable s inode.blocksSumTree ys)
    (hnd : (inode.block :: (xs ++ ys)).Nodup) (ho : ∀ x ∈ inode.block :: (xs ++ ys), s.Owned x) :
    Runs (inodeDelete inode) s fun _ s' => FreeStep s s' (inode.block :: (xs ++ ys)) := by
  obtain ⟨hib, hxy⟩ := List.nodup_cons.mp hnd
  obtain ⟨hxs, hys, hdis⟩ := List.nodup_append.mp hxy
  have hx : ∀ x ∈ xs, s.Owned x := fun x hx => ho x (List.mem_cons_of_mem _ (List.mem_append_left _ hx))
  have hy : ∀ x ∈ ys, s.Owned x := fun x hy => ho x (List.mem_cons_of_mem _ (List.mem_append_right _ hy))
  unfold inodeDelete
  rw [if_neg (not_not.mpr hread)]
  refine Runs.bind (eraseTree_spec hdata hxs hx) ?_
  intro t₁ s₁ h₁
  have hyx : ∀ x ∈ ys, x ∉ xs := fun x hy hx => hdis x hx x hy rfl
  refine Runs.bind (eraseTree_spec (hsum.freed h₁ hyx fun hz => (hx 0 hz).ne_zero rfl) hys
    fun x hx => h₁.owned (hy x hx) (hyx x hx)) ?_
  intro t₂ s₂ h₂
  have h₁₂ := h₁.trans h₂
  have hown := h₁₂.owned (ho _ (List.mem_cons_self ..)) hib
  refine Runs.step (blockFree_run hown.lt hown.marked) (Runs.pure ?_)
  exact (h₁₂.trans (FreeStep.mark s₂ inode.block)).perm List.perm_append_comm

end delete

/-! ### Creating an inode -/

/-- A tree of one leaf without keys. -/
def TreeView.empty (root : ℕ) : TreeView := ⟨root, 1, [], [root]⟩

/-- A new object. -/
def Layout.new (iblock : ℕ) (ino : Key) (data sum : ℕ) : Layout :=
  ⟨iblock, ino, 0, TreeView.empty data, TreeView.empty sum⟩

section create

variable {s s' : Sb} {b : ℕ} {ino : Key}

/-- The inode that `nkfs_inode_create` fills. -/
def Inode.blank (b : ℕ) (ino : Key) : Inode where
  block := b
  ino := ino
  size := 0
  blocksTreeBlock := 0
  blocksSumTreeBlock := 0
  blocksTree := none
  blocksSumTree := none
  dirty := false
  readers := 0

/-- Where the filling of an inode stopped: its trees so far, and the blocks taken for them. -/
structure Unfilled (s s' : Sb) (b : ℕ) (i : Inode) (xs ys : List ℕ) : Prop where
  block : i.block = b
  readers : i.readers = 0
  data : Erasable s' i.blocksTree xs
  sum : Erasable s' i.blocksSumTree ys
  step : TreeStep s s' [] (ys ++ xs)
  fails : s.allocFails < s'.allocFails
  full : ¬ s.Ample 2

/-- Writing the inode of a new object whose trees are there. -/
lemma TreeStep.stored_new {d c : ℕ} (hst : TreeStep s s' [] [c, d]) (hz : s.bm 0 = true) (hb : s.Owned b)
    (hd : (TreeView.empty d).Ok s') (hc : (TreeView.empty c).Ok s') :
    Stored ((s'.tried true).writeInode b (Layout.new b ino d c).disk) (Layout.new b ino d c) [] := by
  have htry : TreeStep s' (s'.tried true) [b] [] :=
    (TreeStep.tried s' true).mono fun _ hx => absurd hx not_mem_nil
  have hw := htry.trans (TreeStep.writeInode _ b (Layout.new b ino d c).disk) fun _ hx => Or.inl hx
  have hown : ∀ x ∈ [b], s.Owned x := fun x hx => by
    rw [mem_singleton.mp hx]
    exact hb
  have hnd : ([c, d] ++ [b]).Nodup := hst.nodup_owned (nodup_singleton b) hown
  have hblocks : ((Layout.new b ino d c).blocks ++ []).Perm ([c, d] ++ [b]) :=
    perm_iff_count.mpr fun x => by
      simp only [Layout.blocks, Layout.new, TreeView.held, TreeView.empty, map_nil,
        append_nil, count_append, count_cons, count_nil]
      omega
  have hne : ∀ x ∈ [c, d], x ∉ [b] := fun x hx hxb =>
    (List.nodup_append.mp hnd).2.2 x hx x hxb rfl
  refine ⟨Function.update_self .., fun i => ?_, fun x hx => hw.owned ?_, hblocks.nodup_iff.mpr hnd⟩
  · cases i with
    | false => exact hw.isTree hd fun x hx => hne x (mem_cons_of_mem _ hx)
    | true =>
      refine hw.isTree hc fun x hx => hne x ?_
      rw [mem_singleton.mp hx]
      exact mem_cons_self ..
  · exact hst.owned_append hz hown (hblocks.mem_iff.mp hx)

/-- The two trees and the image of a new inode. -/
lemma inodeFill_spec (hz : s.bm 0 = true) (hb : s.Owned b) :
    Runs (inodeFill (Inode.blank b ino)) s fun r s' =>
      (∃ d c, r = ((Layout.new b ino d c).inode, true) ∧ TreeStep s s' [b] [c, d] ∧
        Stored s' (Layout.new b ino d c) [] ∧ s'.allocFails = s.allocFails) ∨
      (∃ i xs ys, r = (i, false) ∧ Unfilled s s' b i xs ys) := by
  unfold inodeFill
  refine Runs.bind (btreeCreate_spec hz) ?_
  rintro _ s₁ (⟨⟨d, rel⟩, rfl, hrel, hst₁, hd, hf₁⟩ | ⟨rfl, hst₁, hf₁, hfull⟩)
  swap
  · exact Runs.pure (Or.inr ⟨_, [], [], rfl, rfl, rfl, rfl, rfl, hst₁, hf₁,
      fun ha => hfull (ha.mono one_le_two)⟩)
  obtain rfl : rel = false := hrel
  refine Runs.bind (btreeCreate_spec (hst₁.marked hz)) ?_
  rintro _ s₂ (⟨⟨c, rel⟩, rfl, hrel, hst₂, hc, hf₂⟩ | ⟨rfl, hst₂, hf₂, hfull⟩)
  swap
  · refine Runs.pure (Or.inr ⟨_, [d], [], rfl, rfl, rfl,
      ⟨TreeView.empty d, hst₂.isTree hd fun _ _ => not_mem_nil, rfl, rfl⟩, rfl,
      hst₁.trans hst₂ fun _ hx => absurd hx not_mem_nil, hf₁ ▸ hf₂, fun ha => hfull ?_⟩)
    exact hst₁.ample ha
  obtain rfl : rel = false := hrel
  have hst : TreeStep s s₂ [] [c, d] := hst₁.trans hst₂ fun _ hx => absurd hx not_mem_nil
  have hd₂ : (TreeView.empty d).Ok s₂ := hst₂.isTree hd fun _ _ => not_mem_nil
  have hb₂ := hst.owned hb
  have hwrite := inodeWrite_spec (s := s₂) (show (Layout.new b ino d c).inode.block ≠ 0 from hb.ne_zero)
  refine Runs.bind hwrite ?_
  rintro _ s₃ (⟨rfl, rfl⟩ | ⟨rfl, rfl, hfull⟩)
  · refine Runs.pure (Or.inl ⟨d, c, rfl, ?_, hst.stored_new hz hb hd₂ hc, hf₂.trans hf₁⟩)
    exact ((hst.mono fun _ hx => absurd hx not_mem_nil).trans (TreeStep.tried s₂ true)
      fun _ hx => absurd hx not_mem_nil).trans (TreeStep.writeInode ..) fun _ hx => Or.inl hx
  · refine Runs.pure (Or.inr ⟨_, [d], [c], rfl, rfl, rfl, ⟨TreeView.empty d, ?_, rfl, rfl⟩,
      ⟨TreeView.empty c, ?_, rfl, rfl⟩, ?_, ?_, fun ha => hfull (hst.ample ha)⟩)
    · exact (TreeStep.tried s₂ false).isTree hd₂ fun _ _ => not_mem_nil
    · exact (TreeStep.tried s₂ false).isTree hc fun _ _ => not_mem_nil
    · exact hst.trans (TreeStep.tried s₂ false) fun _ hx => absurd hx not_mem_nil
    · rw [← hf₁, ← hf₂]
      exact Nat.lt_succ_self _

/-- **Creating an inode**: a new object, or everything is given back. -/
theorem inodeCreate_spec (hz : s.bm 0 = true) (ino : Key) : Runs (inodeCreate ino) s fun r s' =>
    (∃ b d c, r = some (Layout.new b ino d c).inode ∧ TreeStep s s' [] (Layout.new b ino d c).blocks ∧
      Stored s' (Layout.new b ino d c) [] ∧ s'.allocFails = s.allocFails) ∨
    (r = none ∧ TreeStep s s' [] [] ∧ s.allocFails < s'.allocFails ∧ ¬ s.Ample 3) := by
  unfold inodeCreate
  refine Runs.bind (nextAlloc_spec s) ?_
  rintro ok _ ⟨rfl, hok⟩
  cases ok with
  | false =>
    exact Runs.pure (Or.inr ⟨rfl, TreeStep.tried s false, Nat.lt_succ_self _,
      fun ha => hok rfl (ha.mono (Nat.zero_le _))⟩)
  | true =>
    have htick := Ticked.tried s true
    refine Runs.bind (blockAlloc_spec (s.tried true)) ?_
    rintro _ _ (⟨b, rfl, hfree, hlt, rfl⟩ | ⟨rfl, rfl, hfull⟩)
    swap
    · refine Runs.pure (Or.inr ⟨rfl, (htick.trans (Ticked.tried _ false)).step, Nat.lt_succ_self _,
        fun ha => hfull ((htick.ample ha).mono (by decide))⟩)
    have hst : TreeStep s (((s.tried true).tried true).mark b true) [] [b] :=
      (htick.trans (Ticked.tried _ true)).step.trans (TreeStep.mark hfree hlt)
        fun _ hx => absurd hx List.not_mem_nil
    have hb := hst.owned_fresh hz (List.mem_singleton_self b)
    show Runs (if b = 0 then _ else _) _ _
    rw [if_neg hb.ne_zero]
    refine Runs.bind (inodeFill_spec (hst.marked hz) hb) ?_
    rintro _ s' (⟨d, c, rfl, hst', hsto, hf⟩ | ⟨i, xs, ys, rfl, hun⟩)
    · refine Runs.pure (Or.inl ⟨b, d, c, rfl, ?_, hsto, hf⟩)
      have hall : TreeStep s s' [] [c, d, b] := hst.trans hst' fun _ hx => Or.inr hx
      exact hall.perm (List.perm_iff_count.mpr fun x => by
        simp only [Layout.blocks, Layout.new, TreeView.held, TreeView.empty, List.map_nil,
          List.append_nil, List.count_append, List.count_cons, List.count_nil]
        omega)
    · have hall : TreeStep s s' [] (ys ++ xs ++ [b]) :=
        hst.trans hun.step fun _ hx => absurd hx List.not_mem_nil
      have hperm : (ys ++ xs ++ [b]).Perm (i.block :: (xs ++ ys) ++ []) := by
        rw [hun.block, List.append_nil]
        exact (List.perm_append_singleton b (ys ++ xs)).trans (List.perm_append_comm.cons b)
      have hall := hall.perm hperm
      have hnd := hall.nodup
      rw [List.append_nil] at hnd
      refine Runs.bind (inodeDelete_spec hun.readers hun.data hun.sum hnd fun x hx =>
        hall.owned_fresh hz (List.mem_append_left _ hx)) ?_
      intro _ s'' hfreed
      refine Runs.pure (Or.inr ⟨rfl, hall.freed hfreed, hfreed.allocFails ▸ hun.fails,
        fun ha => hun.full (hst.ample ha)⟩)

end create

/-! ### The tree of inodes -/

section inodes

variable {s s₁ s' : Sb} {big : Bool} {T T' : TreeView} {os os' l₁ l₂ : List Layout} {o : Layout}
  {fresh xs : List ℕ}

/-- An object without blocks of data is in order. -/
lemma Stored.obj_new {b d c : ℕ} {ino : Key} (h : Stored s (Layout.new b ino d c) []) :
    ObjOk s big (Layout.new b ino d c) where
  stored := h
  keys := ⟨fun _ hx => absurd hx not_mem_nil, fun _ hx => absurd hx not_mem_nil⟩
  sums _ _ _ _ hb := nomatch hb

/-- A step that touched only nodes of the tree of inodes leaves every object in order. -/
lemma SysOk.objs_away (h : SysOk s big T os) (hst : TreeStep s s' T.nodes fresh) :
    ∀ o ∈ os, ObjOk s' big o := fun o ho =>
  (h.objs o ho).away hst fun _ hx hn => h.node_notMem ho hn hx

/-- An operation on the tree of inodes. -/
lemma SysOk.tree_step (h : SysOk s big T os) (hst : TreeStep s s' T.nodes fresh) (ht : T'.Ok s')
    (hroot : T'.root = T.root) (hobjs : ∀ o ∈ os', ObjOk s' big o)
    (hmap : T'.map.Perm (os'.map fun o => (o.ino, o.iblock)))
    (hblocks : (T'.nodes ++ os'.flatMap Layout.blocks).Perm
      (fresh ++ (T.nodes ++ os.flatMap Layout.blocks))) : SysOk s' big T' os' := by
  have hperm : (sysBlocks s' T' os').Perm (fresh ++ sysBlocks s T os) := by
    rw [perm_iff_count] at hblocks ⊢
    intro x
    have hx := hblocks x
    simp only [sysBlocks, hst.env, count_append] at hx ⊢
    omega
  obtain ⟨hnd, hbits, hused⟩ := h.blocks_step hst hperm
  refine ⟨hst.stopping.trans h.running, ?_, ht, hobjs, hmap, hnd, hbits, hused, hst.env ▸ h.dev⟩
  rw [hst.inodesTree, h.inodesTree, TreeView.tree, TreeView.tree, hroot]

/-- The object was taken out of the tree of inodes and its blocks were given back. -/
lemma SysOk.delete (h : SysOk s big T (l₁ ++ o :: l₂)) (hst : TreeStep s s₁ T.nodes []) (ht : T'.Ok s₁)
    (hroot : T'.root = T.root) (hnodes : T'.nodes.Perm T.nodes) (hmap : T'.map = del o.ino T.map)
    (hfree : FreeStep s₁ s' o.blocks) : SysOk s' big T' (l₁ ++ l₂) := by
  have ho : o ∈ l₁ ++ o :: l₂ := mem_append_right _ (mem_cons_self ..)
  have hz : 0 ∉ o.blocks := fun hz => ((h.objs o ho).stored.owned_block hz).ne_zero rfl
  have hperm : (sysBlocks s T (l₁ ++ o :: l₂)).Perm (o.blocks ++ sysBlocks s' T' (l₁ ++ l₂)) := by
    rw [perm_iff_count] at hnodes ⊢
    intro x
    have hx := hnodes x
    simp only [sysBlocks, hfree.env, hst.env, flatMap_append, flatMap_cons,
      count_append] at hx ⊢
    omega
  have hnd := nodup_append.mp (hperm.nodup_iff.mp h.nodup)
  have hmem : ∀ o' ∈ l₁ ++ l₂, o' ∈ l₁ ++ o :: l₂ := fun o' ho' =>
    perm_middle.symm.mem_iff.mp (mem_cons_of_mem _ ho')
  refine ⟨?_, ?_, ?_, fun o' ho' => ?_, ?_, hnd.2.1, fun b => ?_, ?_, ?_⟩
  · rw [hfree.stopping, hst.stopping, h.running]
  · rw [hfree.inodesTree, hst.inodesTree, h.inodesTree, TreeView.tree, TreeView.tree, hroot]
  · exact hfree.isTree ht (fun x hx => h.node_notMem ho (hnodes.mem_iff.mp hx)) hz
  · exact (h.objs_away hst o' (hmem o' ho')).freed hfree (fun x hx => h.disjoint ho' hx) hz
  · have hdel := perm_del_of_find_some h.tree.sorted (h.find_obj ho)
    have hcons : ((o.ino, o.iblock) :: del o.ino T.map).Perm
        ((o.ino, o.iblock) :: (l₁ ++ l₂).map fun o => (o.ino, o.iblock)) :=
      (hdel.symm.trans h.map).trans (perm_middle.map _)
    rw [hmap]
    exact hcons.cons_inv
  · rw [hfree.bm, hst.bm, Bool.and_eq_true, Bool.or_eq_true, decide_eq_true_eq, decide_eq_true_eq,
      h.bits, hperm.mem_iff, mem_append]
    constructor
    · rintro ⟨(hb | hb) | hb, hno⟩
      · exact absurd hb hno
      · exact hb
      · exact absurd hb not_mem_nil
    · exact fun hb => ⟨Or.inl (Or.inr hb), fun hbo => hnd.2.2 b hbo b hb rfl⟩
  · rw [hfree.used, hst.used, h.used, hperm.length_eq, length_append, length_nil]
    push_cast
    ring
  · rw [hfree.env, hst.env]
    exact h.dev

/-! ### Creating an object -/

/-- What a create ends in: the object is there, or an object with the id was there already, or an
allocation failed. -/
def CreateDone (s : Sb) (big : Bool) (T : TreeView) (os : List Layout) (id : Key)
    (r : Except Errno Unit) (s' : Sb) : Prop :=
  ∃ T' fresh, TreeStep s s' T.nodes fresh ∧
    ((r = .ok () ∧ (∀ o ∈ os, o.ino ≠ id) ∧ s'.allocFails = s.allocFails ∧
        ∃ b d c, SysOk s' big T' (Layout.new b id d c :: os)) ∨
      (SysOk s' big T' os ∧
        (r = .error .eexist ∧ (∃ o ∈ os, o.ino = id) ∧ s'.allocFails = s.allocFails ∨
          ∃ e, r = .error e ∧ s.allocFails < s'.allocFails ∧ ¬ s.Ample (T.height + 5))))

/-- **A create** adds an object to the device, or leaves its objects as they are. -/
theorem sbCreateObj_spec (h : SysOk s big T os) (id : Key) :
    Runs (sbCreateObj id) s (CreateDone s big T os id) := by
  unfold sbCreateObj
  refine Runs.get ?_
  rw [h.running, if_neg Bool.false_ne_true, h.inodesTree]
  refine Runs.bind (inodeCreate_spec h.zero id) ?_
  rintro _ s₁ (⟨b, d, c, rfl, hst₁, hsto, hf₁⟩ | ⟨rfl, hst₁, hf₁, hfull⟩)
  swap
  · refine Runs.pure ⟨T, [], hst₁.mono fun _ hx => absurd hx List.not_mem_nil,
      Or.inr ⟨h.quiet hst₁, Or.inr ⟨_, rfl, hf₁, fun ha => hfull (ha.mono (by omega))⟩⟩⟩
  have htree₁ := hst₁.isTree h.tree fun _ _ => List.not_mem_nil
  refine Runs.bind (insertKey_spec (t := T.tree) rfl htree₁ _ _ false) ?_
  rintro r s₂ ⟨h', es', bs', fresh, ht', hst₂, hperm, hins, hroom⟩
  have hmono : TreeStep s s₁ T.nodes (Layout.new b id d c).blocks :=
    hst₁.mono fun _ hx => absurd hx List.not_mem_nil
  have hst := hmono.trans hst₂ fun _ hx => Or.inl hx
  -- the new blocks are no nodes of the tree of inodes
  have hdis : ∀ x ∈ (Layout.new b id d c).blocks, x ∉ T.nodes := fun x hx hn => by
    have hfree := (hst₁.free x hx).1
    rw [(h.bits x).mpr (mem_sysBlocks_node hn)] at hfree
    cases hfree
  have hobj : ObjOk s₂ big (Layout.new b id d c) := hsto.obj_new.away hst₂ hdis
  cases r with
  | ok u =>
    obtain ⟨hes, hnone, hf₂⟩ := hins
    have hnone : find T.map id = none := hnone.resolve_left Bool.false_ne_true
    refine Runs.pure ⟨⟨T.root, h', es', bs'⟩, _, hst, Or.inl ⟨rfl, fun o ho hid => ?_,
      hf₂.trans hf₁, b, d, c, h.tree_step hst ht' rfl (fun o ho => ?_) ?_ ?_⟩⟩
    · rw [← hid, h.find_obj ho] at hnone
      cases hnone
    · rcases List.mem_cons.mp ho with rfl | ho
      · exact hobj
      · exact h.objs_away hst o ho
    · rw [hes]
      exact (put_perm_of_find_none hnone).trans (h.map.cons _)
    · rw [List.perm_iff_count] at hperm ⊢
      intro x
      have hx := hperm x
      simp only [List.flatMap_cons, List.count_append] at hx ⊢
      omega
  | error e =>
    obtain ⟨rfl, hins⟩ := hins
    have hown : ∀ x ∈ (Layout.new b id d c).blocks, s₂.Owned x := fun x hx =>
      hobj.stored.owned_block hx
    refine Runs.bind (inodeDelete_spec rfl ⟨_, hobj.stored.tree false, rfl, rfl⟩
      ⟨_, hobj.stored.tree true, rfl, rfl⟩ hobj.stored.nodup_blocks hown) ?_
    intro _ s₃ hfreed
    have hst₃ : TreeStep s s₃ T.nodes fresh := (hst.perm List.perm_append_comm).freed hfreed
    have hsys : SysOk s₃ big ⟨T.root, h', T.map, bs'⟩ os := by
      refine h.tree_step hst₃ (hfreed.isTree ht' (fun x hx hxo => ?_) ?_) rfl (h.objs_away hst₃) h.map ?_
      · rcases List.mem_append.mp (hperm.mem_iff.mp hx) with hx | hx
        · have hfree := (hst₂.free x hx).1
          rw [(hsto.owned_block hxo).marked] at hfree
          cases hfree
        · exact hdis x hxo hx
      · exact fun hz => (hown 0 hz).ne_zero rfl
      · rw [← List.append_assoc]
        exact hperm.append_right _
    refine Runs.pure ⟨_, fresh, hst₃, Or.inr ⟨hsys, ?_⟩⟩
    rcases hins with ⟨rfl, -, hpres, hf₂⟩ | ⟨-, hf₂⟩
    · obtain ⟨v, hv⟩ := Option.ne_none_iff_exists'.mp hpres
      obtain ⟨o, ho, hid, -⟩ := h.find_some hv
      exact Or.inl ⟨rfl, ⟨o, ho, hid⟩, by rw [hfreed.allocFails, hf₂, hf₁]⟩
    · refine Or.inr ⟨e, rfl, by rw [hfreed.allocFails, ← hf₁]; exact hf₂, fun ha => ?_⟩
      have ha₁ : s₁.Ample (T.height + 2) := hst₁.ample ha
      exact absurd (hroom ha₁) hf₂.ne'

/-! ### Deleting an object -/

/-- What a delete that returns ends in. -/
def DeleteDone (s : Sb) (big : Bool) (T : TreeView) (os : List Layout) (id : Key)
    (r : Except Errno Unit) (s' : Sb) : Prop :=
  (r = .error .enoent ∧ s' = s ∧ ∀ o ∈ os, o.ino ≠ id) ∨
  ∃ l₁ o l₂, os = l₁ ++ o :: l₂ ∧ o.ino = id ∧
    ((r = .ok () ∧ s'.allocFails = s.allocFails ∧ ∃ T', SysOk s' big T' (l₁ ++ l₂) ∧
        ∃ s₁, TreeStep s s₁ T.nodes [] ∧ FreeStep s₁ s' o.blocks) ∨
      (r = .error .eio ∧ Ticked s s' ∧ s.allocFails < s'.allocFails ∧ ¬ s.Ample 0))

/-- **A delete** takes the object and all its blocks off the device. It stops only where the
tree of inodes has no room for the descent. -/
theorem sbDeleteObj_spec (h : SysOk s big T os) (id : Key) : Ends (sbDeleteObj id) s
    (DeleteDone s big T os id) fun _ s' => ¬ Roomy s.nodes id (T.height - 1) T.root ∧
      s.allocFails ≤ s'.allocFails := by
  unfold sbDeleteObj
  refine Ends.bind (sbFindInode_spec h id).ends ?_
  rintro _ s₁ (⟨rfl, rfl, hnone⟩ | ⟨o, ho, rfl, htick, ⟨rfl, hf⟩ | ⟨rfl, hf, hfull⟩⟩)
  · exact Runs.ends (Runs.pure (Or.inl ⟨rfl, rfl, hnone⟩))
  · have hsys := h.quiet htick.step
    obtain ⟨l₁, l₂, rfl⟩ := List.append_of_mem ho
    refine Ends.step (show (MonadState.get : M Sb) s₁ = .ok (s₁, s₁) from rfl) ?_
    rw [hsys.inodesTree]
    by_cases hroomy : Roomy s.nodes o.ino (T.height - 1) T.root
    · rw [← htick.nodes] at hroomy
      refine Ends.bind (deleteKey_roomy (t := T.tree) rfl hsys.tree o.ino hroomy).ends ?_
      rintro r s₂ ⟨-, hst₂, hf₂, bs', ht', hperm⟩
      have hobj := hsys.objs_away hst₂ o ho
      have hdel := inodeDelete_spec (show o.inode.readers = 0 from rfl)
        ⟨_, hobj.stored.tree false, rfl, rfl⟩ ⟨_, hobj.stored.tree true, rfl, rfl⟩
        hobj.stored.nodup_blocks fun x hx => hobj.stored.owned_block hx
      refine Ends.bind hdel.ends ?_
      intro _ s₃ hfreed
      have hst := (htick.step.mono fun _ hx => absurd hx List.not_mem_nil).trans hst₂
        fun _ hx => Or.inl hx
      exact Runs.ends (Runs.pure (Or.inr ⟨l₁, o, l₂, rfl, rfl, Or.inl ⟨rfl,
        hfreed.allocFails.trans (hf₂.trans hf), ⟨T.root, T.height, del o.ino T.map, bs'⟩,
        hsys.delete hst₂ ht' rfl hperm rfl hfreed, s₂, hst, hfreed⟩⟩))
    · rw [← htick.nodes] at hroomy
      have hstop := deleteKey_stops (t := T.tree) rfl hsys.tree o.ino hroomy
      rw [htick.nodes] at hroomy
      exact Or.inr (Stops.of_left (hstop.mono fun _ _ he => ⟨hroomy, hf ▸ he.2⟩))
  · obtain ⟨l₁, l₂, rfl⟩ := List.append_of_mem ho
    exact Runs.ends (Runs.pure (Or.inr ⟨l₁, o, l₂, rfl, rfl, Or.inr ⟨rfl, htick, hf, hfull⟩⟩))

end inodes

/-! ### Formatting -/

section format

variable {s s' : Sb} {big : Bool} {T : TreeView} {os : List Layout} {size bmBlocks : ℕ}

/-- What the header says about a device: the bitmap covers it, and a block is left over. -/
lemma genHeader_ok (h : genHeader size = .ok bmBlocks) :
    1 + bmBlocks < size / blockSize ∧ size / blockSize ≤ 8 * blockSize * bmBlocks := by
  have h : (if size % blockSize ≠ 0 ∨ size ≤ blockSize then .error .einval
      else if size ≤ (1 + divRoundUp (divRoundUp (size / blockSize) 8) blockSize) * blockSize then
        .error .einval
      else .ok (divRoundUp (divRoundUp (size / blockSize) 8) blockSize) : Except Errno ℕ) = .ok bmBlocks := h
  split_ifs at h with hbad hsmall
  rw [Except.ok.injEq] at h
  rw [h] at hsmall
  have hdvd : size % 65536 = 0 := not_not.mp (not_or.mp hbad).1
  have hsmall : (1 + bmBlocks) * 65536 < size := not_le.mp hsmall
  have hround : ∀ x y, 0 < y → x ≤ divRoundUp x y * y := fun x y hy => by
    have hx := Nat.div_add_mod x y
    have hlt := Nat.mod_lt x hy
    unfold divRoundUp
    split_ifs with hr
    · rw [Nat.add_mul, one_mul, mul_comm]
      omega
    · rw [not_not.mp hr, add_zero, mul_comm] at hx
      exact hx.ge
  have hbytes := hround (size / blockSize) 8 (by decide)
  have hblocks := hround (divRoundUp (size / blockSize) 8) blockSize (by decide)
  rw [h] at hblocks
  constructor
  · show 1 + bmBlocks < size / 65536
    omega
  · calc size / blockSize ≤ divRoundUp (size / blockSize) 8 * 8 := hbytes
      _ ≤ bmBlocks * blockSize * 8 := Nat.mul_le_mul_right 8 hblocks
      _ = 8 * blockSize * bmBlocks := by ring

/-- The state with the bits of `is` set. -/
def Sb.markAll (s : Sb) (is : List ℕ) : Sb :=
  { s with
    bm := fun x => s.bm x || decide (x ∈ is)
    usedBlocks := s.usedBlocks + is.length }

lemma Sb.markAll_cons (s : Sb) (i : ℕ) (is : List ℕ) : (s.mark i true).markAll is = s.markAll (i :: is) := by
  have hbm : (fun x => Function.update s.bm i true x || decide (x ∈ is)) =
      fun x => s.bm x || decide (x ∈ i :: is) := by
    funext x
    by_cases hx : x = i
    · simp [hx]
    · simp [hx]
  have hused : s.usedBlocks + 1 + (is.length : ℤ) = s.usedBlocks + ((i :: is).length : ℕ) := by
    rw [length_cons]
    push_cast
    ring
  show ({ s with
    bm := fun x => Function.update s.bm i true x || decide (x ∈ is)
    usedBlocks := s.usedBlocks + 1 + is.length } : Sb) = _
  rw [hbm, hused]
  rfl

/-- The blocks before the first free one are marked in turn. -/
lemma markBlocks_run : ∀ {is : List ℕ} {s : Sb}, is.Nodup → (∀ i ∈ is, i < s.env.nrBlocks ∧ s.bm i = false) →
    markBlocks is s = .ok (.ok (), s.markAll is)
  | [], s, _, _ => by
    have hs : s.markAll [] = s := by simp [Sb.markAll]
    rw [hs]
    rfl
  | i :: is, s, hnd, hfree => by
    obtain ⟨hi, hnd⟩ := nodup_cons.mp hnd
    obtain ⟨hlt, hbm⟩ := hfree i (mem_cons_self ..)
    have hmark : blockMark i true s = .ok (.ok (), s.mark i true) := by
      unfold blockMark
      rw [run_get, if_neg (not_le.mpr hlt), if_neg (by rw [hbm]; decide)]
      rfl
    have hrest : ∀ j ∈ is, j < (s.mark i true).env.nrBlocks ∧ (s.mark i true).bm j = false :=
      fun j hj => by
        obtain ⟨hjlt, hjbm⟩ := hfree j (mem_cons_of_mem _ hj)
        have hne : j ≠ i := fun heq => hi (heq ▸ hj)
        exact ⟨hjlt, (Function.update_of_ne hne ..).trans hjbm⟩
    rw [← Sb.markAll_cons]
    exact (run_bind_ok hmark).trans (markBlocks_run hnd hrest)

/-- The device right before its tree of inodes is created. -/
def Sb.cleared (s : Sb) (size bmBlocks : ℕ) : Sb :=
  { s with
    env := { s.env with nrBlocks := size / blockSize, bmBlocks := bmBlocks }
    bm := fun x => decide (x ∈ List.range (1 + bmBlocks))
    usedBlocks := (1 + bmBlocks : ℕ)
    tick := s.tick + 1 }

/-- The new tree of inodes on the cleared device. -/
lemma SysOk.formatted {t : Tree} (hst : TreeStep (s.cleared size bmBlocks) s' [] [t.root])
    (ht : IsTree s' true t.root 1 [] [t.root]) (hrel : t.releasing = false) (hdev : size < 2 ^ 63) :
    SysOk { s' with inodesTree := t, stopping := false } big (TreeView.empty t.root) [] where
  running := rfl
  inodesTree := by
    obtain ⟨root, rel⟩ := t
    exact congrArg (Tree.mk root) hrel
  tree := ht.untouched ⟨rfl, ht.zero, fun hx x hb => ⟨rfl, (hx.sub.owned x (hx.blocks_eq ▸ hb)).marked⟩⟩
  objs _ ho := absurd ho not_mem_nil
  map := List.Perm.refl _
  nodup := by
    show (range (1 + s'.env.bmBlocks) ++ [t.root]).Nodup
    rw [hst.env]
    refine nodup_append.mpr ⟨nodup_range, nodup_singleton _, fun x hx y hy hxy => ?_⟩
    have hfree := (hst.free y hy).1
    exact of_decide_eq_false hfree (hxy ▸ hx)
  bits b := by
    show s'.bm b = true ↔ b ∈ range (1 + s'.env.bmBlocks) ++ [t.root]
    rw [hst.bm, hst.env, Bool.or_eq_true, mem_append, decide_eq_true_eq]
    exact or_congr decide_eq_true_iff Iff.rfl
  used := by
    show s'.usedBlocks = ((range (1 + s'.env.bmBlocks) ++ [t.root]).length : ℕ)
    rw [hst.used, hst.env, length_append, length_range]
    rfl
  dev := by
    show s'.env.nrBlocks * blockSize < 2 ^ 63
    rw [hst.env]
    exact (Nat.div_mul_le_self size blockSize).trans_lt hdev

/-- The end of `nkfs_sb_format`: the tree of inodes. -/
def sbFormatTree : M (Except Errno Unit) := do
  match ← btreeCreate 0 with
  | none => return .error .enomem
  | some tree =>
    let s ← get
    set { s with inodesTree := tree, stopping := false }
    return .ok ()

/-- A format that gets memory and accepts the size marks the header and the bitmap. -/
lemma sbFormat_cleared (hok : s.env.fails s.tick = false) (hgen : genHeader size = .ok bmBlocks) :
    sbFormat size s = sbFormatTree (s.cleared size bmBlocks) := by
  have hmark : markBlocks (range (1 + bmBlocks)) ({ s.tried true with
      env := { s.env with nrBlocks := size / blockSize, bmBlocks := bmBlocks }
      bm := fun _ => false
      usedBlocks := 0 } : Sb) = .ok (.ok (), s.cleared size bmBlocks) := by
    rw [markBlocks_run nodup_range fun i hi => ⟨(mem_range.mp hi).trans (genHeader_ok hgen).1, rfl⟩]
    simp [Sb.markAll, Sb.cleared, Sb.tried]
  have hnext : nextAlloc s = .ok (true, s.tried true) := by
    rw [nextAlloc_run, hok]
    rfl
  unfold sbFormat
  rw [run_bind_ok hnext, if_pos rfl, hgen]
  dsimp only
  rw [run_get]
  exact (run_bind_ok rfl).trans ((run_bind_ok rfl).trans (run_bind_ok hmark))

/-- On the cleared device block 0 is taken and there is room for the root. -/
lemma cleared_zero : (s.cleared size bmBlocks).bm 0 = true := decide_eq_true (mem_range.mpr (by omega))

lemma cleared_ample (hgen : genHeader size = .ok bmBlocks) (hfails : ∀ i, s.env.fails i = false) :
    (s.cleared size bmBlocks).Ample 1 := by
  obtain ⟨hroom, hcover⟩ := genHeader_ok hgen
  refine ⟨hfails, hcover, Finset.card_pos.mpr ⟨1 + bmBlocks, ?_⟩⟩
  rw [Sb.freeSet, Finset.mem_filter, Finset.mem_range]
  exact ⟨hroom, decide_eq_false not_mem_range_self⟩

/-- **Formatting** leaves a device in order, without objects; it fails where the size of the device
does not allow it or an allocation fails. -/
theorem sbFormat_spec (s : Sb) (big : Bool) (hdev : size < 2 ^ 63) : Runs (sbFormat size) s fun r s' =>
    (r = .ok () ∧ (∃ root, SysOk s' big (TreeView.empty root) []) ∧ s'.allocFails = s.allocFails ∧
      ∃ bmBlocks, genHeader size = .ok bmBlocks ∧
        s'.env = { s.env with nrBlocks := size / blockSize, bmBlocks := bmBlocks }) ∨
    (∃ e, r = .error e ∧ (genHeader size = .error e ∨
      s.allocFails < s'.allocFails ∧ ∃ i, s.env.fails i = true)) := by
  cases hok : s.env.fails s.tick with
  | true =>
    have hnext : nextAlloc s = .ok (false, s.tried false) := by
      rw [nextAlloc_run, hok]
      rfl
    refine Runs.step hnext ?_
    exact Runs.pure (Or.inr ⟨_, rfl, Or.inr ⟨Nat.lt_succ_self _, s.tick, hok⟩⟩)
  | false =>
    cases hgen : genHeader size with
    | error e =>
      have hnext : nextAlloc s = .ok (true, s.tried true) := by
        rw [nextAlloc_run, hok]
        rfl
      refine Runs.step hnext ?_
      rw [if_pos rfl, hgen]
      exact Runs.pure (Or.inr ⟨e, rfl, Or.inl rfl⟩)
    | ok bmBlocks =>
      rw [Runs, sbFormat_cleared hok hgen]
      refine Runs.bind (btreeCreate_spec cleared_zero) ?_
      rintro _ s' (⟨t, rfl, hrel, hst, ht, hf⟩ | ⟨rfl, hst, hf, hfull⟩)
      · refine Runs.get (Runs.set (Runs.pure (Or.inl ⟨rfl, ⟨t.root, ?_⟩, hf, bmBlocks, rfl, hst.env⟩)))
        exact SysOk.formatted hst ht hrel hdev
      · refine Runs.pure (Or.inr ⟨_, rfl, Or.inr ⟨hf, ?_⟩⟩)
        by_contra hnone
        exact hfull (cleared_ample hgen fun i => Bool.not_eq_true _ ▸ fun hi => hnone ⟨i, hi⟩)

/-- Free blocks are those that the invariant does not list. -/
lemma SysOk.ample (h : SysOk s big T os) (hf : ∀ i, s.env.fails i = false)
    (hc : s.env.nrBlocks ≤ 8 * blockSize * s.env.bmBlocks) {n : ℕ}
    (hn : (sysBlocks s T os).length + n ≤ s.env.nrBlocks) : s.Ample n := by
  refine ⟨hf, hc, ?_⟩
  have hsub : Finset.range s.env.nrBlocks ⊆ s.freeSet ∪ (sysBlocks s T os).toFinset := by
    intro x hx
    rw [Finset.mem_union, Sb.freeSet, Finset.mem_filter, mem_toFinset, ← h.bits]
    cases hbm : s.bm x with
    | true => exact Or.inr rfl
    | false => exact Or.inl ⟨hx, rfl⟩
  have hcard := (Finset.card_le_card hsub).trans (Finset.card_union_le _ _)
  have hlen := (sysBlocks s T os).toFinset_card_le
  rw [Finset.card_range] at hcard
  omega

/-- A device of 65536 blocks can be formatted. -/
lemma exists_format (big : Bool) : ∃ s root, sbFormat (65536 * blockSize) blankSb = .ok (.ok (), s) ∧
    SysOk s big (TreeView.empty root) [] ∧ s.env = blankSb.env ∧ s.allocFails = 0 := by
  have hgen : genHeader (65536 * blockSize) = .ok 1 := by decide
  obtain ⟨r, s, hrun, ⟨rfl, ⟨root, hsys⟩, hf, bm, hbm, henv⟩ | ⟨e, -, hbad | ⟨-, i, hi⟩⟩⟩ :=
    sbFormat_spec blankSb big (show 65536 * blockSize < 2 ^ 63 by decide)
  · rw [hgen, Except.ok.injEq] at hbm
    subst hbm
    exact ⟨s, root, hrun, hsys, henv, hf⟩
  · rw [hgen] at hbad
    cases hbad
  · cases hi

/-- That device is large: with 10000 objects without data there is room left. -/
lemma SysOk.ample_blank (h : SysOk s big T os) (henv : s.env = blankSb.env)
    (hlen : ∀ o ∈ os, o.blocks.length = 3) (hn : os.length ≤ 10000) : s.Ample (T.height + 100) := by
  have hmap : T.map.length = os.length := by rw [h.map.length_eq, length_map]
  have hnodes : T.nodes.length ≤ T.map.length + 1 := h.tree.blocks_length_le
  have hheight : T.height ≤ T.nodes.length := h.tree.blocks_eq ▸ height_le_length h.tree.sub.shape
  have hflat : (os.flatMap Layout.blocks).length = 3 * os.length := by
    rw [length_flatMap, map_congr_left hlen, map_const', sum_replicate, smul_eq_mul,
      mul_comm]
  have hnr : s.env.nrBlocks = 65536 := by rw [henv]; rfl
  have hbm : s.env.bmBlocks = 1 := by rw [henv]; rfl
  refine h.ample (by rw [henv]; exact fun _ => rfl) (by rw [henv]; decide) ?_
  rw [sysBlocks, length_append, length_append, length_range, hflat, hnr, hbm]
  omega

/-- Another object can be created on it. -/
lemma SysOk.exists_create (h : SysOk s big T os) (henv : s.env = blankSb.env) {id : Key}
    (hid : ∀ o ∈ os, o.ino ≠ id) (hlen : ∀ o ∈ os, o.blocks.length = 3) (hn : os.length ≤ 10000) :
    ∃ s' T' b d c, sbCreateObj id s = .ok (.ok (), s') ∧ SysOk s' big T' (Layout.new b id d c :: os) ∧
      (∀ o ∈ Layout.new b id d c :: os, o.blocks.length = 3) ∧ s'.env = blankSb.env ∧
      s'.allocFails = s.allocFails := by
  obtain ⟨r, s', hrun, T', fresh, hst, ⟨rfl, -, hf, b, d, c, hsys⟩ | ⟨-, ⟨-, ⟨o, ho, hoid⟩, -⟩ |
    ⟨e, -, -, hfull⟩⟩⟩ := sbCreateObj_spec h id
  · refine ⟨s', T', b, d, c, hrun, hsys, fun o ho => ?_, hst.env.trans henv, hf⟩
    rcases mem_cons.mp ho with rfl | ho
    · rfl
    · exact hlen o ho
  · exact absurd hoid (hid o ho)
  · exact absurd ((h.ample_blank henv hlen hn).mono (by omega)) hfull

end format

end Nkfs
