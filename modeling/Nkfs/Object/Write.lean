import Nkfs.Object.Block

/-!
# Writing one block of an object

`SumOk s o v` says that the checksum slot of block `v` holds the checksum of the block. Each step of
a write changes one block number at most: `Keeps s s' o o' v` says that every other one keeps its
data block, its bytes and the state of its checksum. The steps are the lookup (no change), the
allocation (`Work.keeps`), the write of the bytes (`cluWrite_run`), the store of the checksum
(`inodeBlockWrite_run`) and the size update (`sizeUpdate_run`).

`writeBlockBuf_spec` puts them together: on an object whose checksums hold, a write of a block
returns with all checksums in place again, and either the bytes are there or an allocation failed.
-/

namespace Nkfs

open Lib.Bytes Lib.Program Lib.Assoc Function List

/-! ### Steps on an object -/

/-- An operation on the object took it from layout `o` to `o'`: it took free blocks for it and
changed no allocated block of anything else. -/
structure ObjStep (s s' : Sb) (o o' : Layout) : Prop where
  stored : Stored s' o' []
  step : ∃ fresh, TreeStep s s' o.blocks fresh ∧ o'.blocks.Perm (fresh ++ o.blocks)
  iblock : o'.iblock = o.iblock
  ino : o'.ino = o.ino
  root : ∀ i, (o'.tree i).root = (o.tree i).root

section step

variable {s s₁ s' : Sb} {o o₁ o' : Layout} {ps : List ℕ} {inode : Inode} {x : ℕ}

lemma ObjStep.refl (h : Stored s o []) : ObjStep s s o o where
  stored := h
  step := ⟨[], TreeStep.refl s _, List.Perm.refl _⟩
  iblock := rfl
  ino := rfl
  root _ := rfl

lemma ObjStep.trans (h₁ : ObjStep s s₁ o o₁) (h₂ : ObjStep s₁ s' o₁ o') : ObjStep s s' o o' where
  stored := h₂.stored
  step := by
    obtain ⟨fresh₁, hst₁, hperm₁⟩ := h₁.step
    obtain ⟨fresh₂, hst₂, hperm₂⟩ := h₂.step
    refine ⟨fresh₂ ++ fresh₁, hst₁.trans hst₂ fun x hx => ?_, ?_⟩
    · exact (mem_append.mp (hperm₁.mem_iff.mp hx)).symm
    · rw [append_assoc]
      exact hperm₂.trans (hperm₁.append_left _)
  iblock := h₂.iblock.trans h₁.iblock
  ino := h₂.ino.trans h₁.ino
  root i := (h₂.root i).trans (h₁.root i)

lemma Work.objStep (hw : Work s s' o o' []) : ObjStep s s' o o' where
  stored := hw.stored
  step := by
    obtain ⟨fresh, hst, hperm⟩ := hw.step
    rw [append_nil] at hperm
    refine ⟨fresh, hst.mono fun x hx => ?_, hperm⟩
    obtain ⟨i, hi⟩ := Layout.mem_nodes.mp hx
    exact o.node_mem hi
  iblock := hw.iblock
  ino := hw.ino
  root := hw.root

lemma ObjStep.fails (h : ObjStep s s' o o') : s.allocFails ≤ s'.allocFails := by
  obtain ⟨_, hst, -⟩ := h.step
  exact hst.fails

lemma ObjStep.env (h : ObjStep s s' o o') : s'.env = s.env := by
  obtain ⟨_, hst, -⟩ := h.step
  exact hst.env

/-- An operation that keeps the size keeps the inode in memory. -/
lemma ObjStep.inode_eq (h : ObjStep s s' o o') (hsize : o'.size = o.size) : o'.inode = o.inode := by
  have hd : o'.data.root = o.data.root := h.root false
  have hs : o'.sum.root = o.sum.root := h.root true
  simp only [Layout.inode, Layout.disk, TreeView.tree, h.iblock, h.ino, hsize, hd, hs]

/-- A write to a block that a value names. -/
lemma Stored.writeValue (h : Stored s o ps) (hst : TreeStep s s' [x] []) {i : Bool}
    (hx : x ∈ (o.tree i).map.map Prod.snd) : Stored s' o ps := by
  have hheld : x ∈ (o.tree i).held := mem_append_right _ hx
  refine ⟨?_, fun j => hst.isTree (h.tree j) fun y hy hyx => ?_, fun y hy => hst.owned (h.owned y hy),
    h.nodup⟩
  · rw [(hst.other _ (h.owned_block o.iblock_mem).marked fun hmem => ?_).2.1, h.inode]
    rw [mem_singleton] at hmem
    exact h.iblock_notMem (hmem ▸ hheld)
  · rw [mem_singleton] at hyx
    subst hyx
    by_cases hij : i = j
    · subst hij
      exact (nodup_append.mp h.nodup_held).2.2 y hy y hx rfl
    · exact h.disjoint hij hheld (mem_append_left _ hy)

lemma ObjStep.writeValue (h : Stored s o []) (hst : TreeStep s s' [x] []) {i : Bool}
    (hx : x ∈ (o.tree i).map.map Prod.snd) : ObjStep s s' o o where
  stored := h.writeValue hst hx
  step := ⟨[], hst.mono fun y hy => by
    rw [mem_singleton.mp hy]
    exact o.held_mem (mem_append_right _ hx), List.Perm.refl _⟩
  iblock := rfl
  ino := rfl
  root _ := rfl

lemma TreeStep.writeClu (s : Sb) (b : ℕ) (m : Mem) : TreeStep s (s.writeClu b m) [b] [] :=
  { TreeStep.refl s [b] with
    other := fun x _ hx => by
      rw [mem_singleton] at hx
      exact ⟨update_of_ne hx .., update_of_ne hx .., update_of_ne hx ..⟩ }

lemma TreeStep.writeInode (s : Sb) (b : ℕ) (d : InodeDisk) : TreeStep s (s.writeInode b d) [b] [] :=
  { TreeStep.refl s [b] with
    other := fun x _ hx => by
      rw [mem_singleton] at hx
      exact ⟨update_of_ne hx .., update_of_ne hx .., update_of_ne hx ..⟩ }

lemma ObjStep.writeInode (h : Stored s o []) (n : ℕ) :
    ObjStep s (s.writeInode o.iblock { o with size := n }.disk) o { o with size := n } where
  stored := by
    have hst := TreeStep.writeInode s o.iblock { o with size := n }.disk
    refine ⟨update_self .., fun i => ?_, fun y hy => hst.owned (h.owned y hy), h.nodup⟩
    have hne : ∀ y ∈ (o.tree i).nodes, y ∉ [o.iblock] := fun y hy hyx => by
      rw [mem_singleton] at hyx
      exact h.iblock_notMem (hyx ▸ mem_append_left _ hy)
    have hi := hst.isTree (h.tree i) hne
    cases i <;> exact hi
  step := ⟨[], (TreeStep.writeInode s o.iblock _).mono fun y hy => by
    rw [mem_singleton.mp hy]
    exact o.iblock_mem, List.Perm.refl _⟩
  iblock := rfl
  ino := rfl
  root i := by cases i <;> rfl

end step

/-! ### Checksums -/

/-- The checksum slot of block `v` holds the checksum of its data block. -/
def SumOk (s : Sb) (o : Layout) (v : ℕ) : Prop := ∀ b c, o.block v = some b →
  o.sumBlock (v / sumSlots) = some c →
  loadLe (s.clus c) (csumSize * (v % sumSlots)) csumSize = s.cluSum b

/-- Every block number not in `F` keeps its data block, its bytes and the state of its checksum. -/
structure Keeps (s s' : Sb) (o o' : Layout) (F : ℕ → Prop) : Prop where
  block : ∀ w < vlim true, ¬ F w → o'.block w = o.block w
  data : ∀ w < vlim true, ¬ F w → ∀ b, o.block w = some b → s'.clus b = s.clus b
  sum : ∀ w < vlim true, ¬ F w → SumOk s o w → SumOk s' o' w

section sums

variable {s s₁ s' : Sb} {o o₁ o' : Layout} {ps : List ℕ} {F G : ℕ → Prop} {big : Bool}
  {v w b c x : ℕ}

lemma Keeps.refl (s : Sb) (o : Layout) (F : ℕ → Prop) : Keeps s s o o F where
  block _ _ _ := rfl
  data _ _ _ _ _ := rfl
  sum _ _ _ h := h

lemma Keeps.trans (h₁ : Keeps s s₁ o o₁ F) (h₂ : Keeps s₁ s' o₁ o' F) : Keeps s s' o o' F where
  block w hw hF := (h₂.block w hw hF).trans (h₁.block w hw hF)
  data w hw hF b hb := by
    rw [h₂.data w hw hF b ((h₁.block w hw hF).trans hb), h₁.data w hw hF b hb]
  sum w hw hF h := h₂.sum w hw hF (h₁.sum w hw hF h)

lemma Keeps.mono (h : Keeps s s' o o' F) (hFG : ∀ w, F w → G w) : Keeps s s' o o' G where
  block w hw hG := h.block w hw fun hF => hG (hFG w hF)
  data w hw hG := h.data w hw fun hF => hG (hFG w hF)
  sum w hw hG := h.sum w hw fun hF => hG (hFG w hF)

/-- Only one key has a given block as its value. -/
lemma Stored.find_inj (h : Stored s o ps) {i : Bool} {k k' : Key} (hk : find (o.tree i).map k = some x)
    (hk' : find (o.tree i).map k' = some x) : k = k' := by
  have hnd := (nodup_append.mp (h.nodup_held (i := i))).2.1
  have hsorted := (h.tree i).sorted
  have heq := inj_on_of_nodup_map hnd ((find_eq_some_iff hsorted).mp hk)
    ((find_eq_some_iff hsorted).mp hk') rfl
  exact congrArg Prod.fst heq

/-- Distinct blocks of an object have distinct data blocks. -/
lemma Stored.block_ne (h : Stored s o ps) (hv : v < vlim true) (hw : w < vlim true) (hne : w ≠ v)
    (hb : o.block v = some b) (hx : o.block w = some x) : x ≠ b := by
  rintro rfl
  exact hne (keyByU64_inj hw hv (h.find_inj (i := false) hx hb))

lemma Stored.block_ne_sumBlock (h : Stored s o ps) (hb : o.block v = some b)
    (hc : o.sumBlock w = some c) : b ≠ c := by
  rintro rfl
  exact h.disjoint (i := false) (j := true) (by decide) (mem_held_of_find (h.tree false) hb)
    (mem_held_of_find (h.tree true) hc)

lemma mem_values_of_find {t : TreeView} {k : Key} (h : t.Ok s) (hf : find t.map k = some b) :
    b ∈ t.map.map Prod.snd :=
  mem_map.mpr ⟨(k, b), (find_eq_some_iff h.sorted).mp hf, rfl⟩

/-- The slots of two blocks are different bytes of the checksum table. -/
lemma slot_disjoint (hne : w ≠ v) (hblk : w / sumSlots = v / sumSlots) :
    csumSize * (w % sumSlots) + csumSize ≤ csumSize * (v % sumSlots) ∨
      csumSize * (v % sumSlots) + csumSize ≤ csumSize * (w % sumSlots) := by
  have hblk : w / 8192 = v / 8192 := hblk
  show 8 * (w % 8192) + 8 ≤ 8 * (v % 8192) ∨ 8 * (v % 8192) + 8 ≤ 8 * (w % 8192)
  omega

/-- A checksum holds after a step that leaves the block and its slot alone. -/
lemma SumOk.step (h : SumOk s o w) (henv : s'.env = s.env) (hb : o'.block w = o.block w)
    (hc : ∀ b, o.block w = some b → ∃ c, o.sumBlock (w / sumSlots) = some c ∧
      o'.sumBlock (w / sumSlots) = some c ∧
      loadLe (s'.clus c) (csumSize * (w % sumSlots)) csumSize =
        loadLe (s.clus c) (csumSize * (w % sumSlots)) csumSize)
    (hdata : ∀ b, o.block w = some b → s'.clus b = s.clus b) : SumOk s' o' w := by
  intro b c hb' hc'
  rw [hb] at hb'
  obtain ⟨c₀, hc₀, hc₁, hslot⟩ := hc b hb'
  rw [hc'] at hc₁
  obtain rfl := Option.some.inj hc₁
  rw [hslot, h b c hb' hc₀, Sb.cluSum, Sb.cluSum, hdata b hb', henv]

/-- A mapped block number is below the limit of the object. -/
lemma KeysOk.lt (hk : KeysOk big o) (h : Stored s o ps) (hw : w < vlim true)
    (hb : o.block w = some b) : w < vlim big := by
  obtain ⟨u, hu, hkey, -⟩ := hk.data _ ((find_eq_some_iff (h.tree false).sorted).mp hb)
  obtain rfl := keyByU64_inj hw (hu.trans_le (vlim_le big)) hkey
  exact hu

/-- An operation under way writes to no data block and to no checksum block. -/
lemma Work.values (hw : Work s s' o o' ps) (h : Stored s o []) {i : Bool}
    (hx : x ∈ (o.tree i).map.map Prod.snd) : s'.clus x = s.clus x := by
  obtain ⟨fresh, hst, -⟩ := hw.step
  have hheld : x ∈ (o.tree i).held := mem_append_right _ hx
  refine (hst.other x (h.owned_block (o.held_mem hheld)).marked fun hmem => ?_).2.2
  obtain ⟨j, hj⟩ := Layout.mem_nodes.mp hmem
  by_cases hij : i = j
  · subst hij
    exact (nodup_append.mp h.nodup_held).2.2 x hj x hx rfl
  · exact h.disjoint hij hheld (mem_append_left _ hj)

/-- An operation under way keeps the blocks that stay mapped as they were. -/
lemma Work.keeps (hw : Work s s' o o' ps) (h : Stored s o []) (hk : KeysOk big o)
    (hb : ∀ w < vlim true, ¬ F w → o'.block w = o.block w)
    (hc : ∀ w c, sumSlots * w < vlim true → o.sumBlock w = some c → o'.sumBlock w = some c) :
    Keeps s s' o o' F where
  block := hb
  data w _ _ b hblk := hw.values h (i := false) (mem_values_of_find (h.tree false) hblk)
  sum w hwl hF hsum := by
    obtain ⟨_, hst, -⟩ := hw.step
    refine hsum.step hst.env (hb w hwl hF) (fun b hblk => ?_)
      fun b hblk => hw.values h (i := false) (mem_values_of_find (h.tree false) hblk)
    obtain ⟨c, hc₀⟩ := hk.sumBlock h (hk.lt h hwl hblk) hblk
    refine ⟨c, hc₀, hc _ c ?_ hc₀, ?_⟩
    · have : sumSlots * (w / sumSlots) ≤ w := Nat.mul_div_le _ _
      omega
    · rw [hw.values h (i := true) (mem_values_of_find (h.tree true) hc₀)]

/-- **What an allocation does to the object**: it maps the block and leaves the others alone, or
leaves all of them alone. -/
theorem Allocated.cases {r : Except Errno InodeBlock} (ha : Allocated s o v r s') (h : Stored s o [])
    (hk : KeysOk big o) (hv : v < vlim big) :
    (∃ o' b c, r = .ok (ibAt v b c) ∧ s'.allocFails = s.allocFails ∧ ObjStep s s' o o' ∧
      KeysOk big o' ∧ Keeps s s' o o' (· = v) ∧ o'.block v = some b ∧
      o'.sumBlock (v / sumSlots) = some c ∧ o'.size = o.size) ∨
    (∃ e o', r = .error e ∧ s.allocFails < s'.allocFails ∧ ¬ s.Ample o.room ∧ ObjStep s s' o o' ∧
      KeysOk big o' ∧ Keeps s s' o o' (fun _ => False) ∧ o'.size = o.size) := by
  have hvt : v < vlim true := hv.trans_le (vlim_le big)
  rcases ha with ⟨o', b, c, rfl, hf, hw, -, hd, hs⟩ | ⟨e, o', rfl, hf, hfull, hw, hd, hs⟩
  · -- the checksum blocks that were there still are
    have hsum : ∀ w c', sumSlots * w < vlim true → o.sumBlock w = some c' →
        o'.sumBlock w = some c' := by
      intro w c' _ hc'
      rcases hs with ⟨-, hs⟩ | ⟨hnone, hs⟩
      · rw [Layout.sumBlock, hs]
        exact hc'
      · rw [Layout.sumBlock, hs, find_put, if_neg]
        · exact hc'
        · intro hkey
          rw [Layout.sumBlock, hkey] at hc'
          rw [Layout.sumBlock, hc'] at hnone
          cases hnone
    have hblock : ∀ w < vlim true, ¬ w = v → o'.block w = o.block w := by
      intro w hw hne
      rw [Layout.block, hd, find_put, if_neg fun hkey => hne (keyByU64_inj hw hvt hkey)]
      rfl
    have hsumv : o'.sumBlock (v / sumSlots) = some c := by
      rcases hs with ⟨hc, hs⟩ | ⟨-, hs⟩
      · rw [Layout.sumBlock, hs]
        exact hc
      · rw [Layout.sumBlock, hs, find_put, if_pos rfl]
    have hle : sumSlots * (v / sumSlots) ≤ v := Nat.mul_div_le _ _
    refine Or.inl ⟨o', b, c, rfl, hf, hw.objStep, ⟨fun x hx => ?_, fun x hx => ?_⟩,
      hw.keeps h hk hblock hsum, ?_, hsumv, hw.size⟩
    · rw [hd, mem_put] at hx
      rcases hx with rfl | ⟨hx, -⟩
      · exact ⟨v, hv, rfl, c, hsumv⟩
      · obtain ⟨u, hu, hkey, c', hc'⟩ := hk.data x hx
        refine ⟨u, hu, hkey, c', hsum _ c' ?_ hc'⟩
        have : sumSlots * (u / sumSlots) ≤ u := Nat.mul_div_le _ _
        exact (this.trans_lt hu).trans_le (vlim_le big)
    · rcases hs with ⟨-, hs⟩ | ⟨-, hs⟩
      · rw [hs] at hx
        exact hk.sum x hx
      · rw [hs, mem_put] at hx
        rcases hx with rfl | ⟨hx, -⟩
        · exact ⟨v / sumSlots, hle.trans_lt hv, rfl⟩
        · exact hk.sum x hx
    · rw [Layout.block, hd, find_put, if_pos rfl]
  · refine Or.inr ⟨e, o', rfl, hf, hfull, hw.objStep, ⟨fun x hx => ?_, fun x hx => ?_⟩,
      hw.keeps h hk (fun w _ _ => ?_) (fun w c _ hc => ?_), hw.size⟩
    · rw [hd] at hx
      obtain ⟨u, hu, hkey, c, hc⟩ := hk.data x hx
      rw [Layout.sumBlock, ← hs] at hc
      exact ⟨u, hu, hkey, c, hc⟩
    · rw [hs] at hx
      exact hk.sum x hx
    · rw [Layout.block, hd]
      rfl
    · rw [Layout.sumBlock, hs]
      exact hc

/-! ### Bytes, checksum and size -/

lemma cluWrite_run (off : ℕ) (buf : Mem) (pos len : ℕ) : cluWrite (ibAt v b c) off buf pos len s = .ok (⟨⟩,
      s.writeClu b (copyIn (s.clus b) off (fun i => buf (pos + i)) len)) := rfl

/-- Writing to the data block of `v`. -/
lemma Keeps.writeData (h : Stored s o []) (hk : KeysOk big o) (hv : v < vlim true)
    (hb : o.block v = some b) (m : Mem) : Keeps s (s.writeClu b m) o o (· = v) where
  block _ _ _ := rfl
  data w hw hne x hx := update_of_ne (h.block_ne hv hw hne hb hx) ..
  sum w hw hne hsum := by
    refine hsum.step rfl rfl (fun x hx => ?_) fun x hx =>
      update_of_ne (h.block_ne hv hw hne hb hx) ..
    obtain ⟨c, hc⟩ := hk.sumBlock h (hk.lt h hw hx) hx
    refine ⟨c, hc, hc, ?_⟩
    show loadLe (update s.clus b m c) _ _ = _
    rw [update_of_ne (h.block_ne_sumBlock hb hc).symm]

lemma inodeBlockWrite_run : inodeBlockWrite (ibAt v b c) s = .ok (⟨⟩, s.writeClu c
    (storeLe (s.clus c) (csumSize * (v % sumSlots)) csumSize (s.cluSum b))) := rfl

/-- Writing to the checksum slot of `v`. -/
lemma Keeps.writeSum (h : Stored s o []) (hk : KeysOk big o) (hv : v < vlim true)
    (hc : o.sumBlock (v / sumSlots) = some c) (n : ℕ) :
    Keeps s (s.writeClu c (storeLe (s.clus c) (csumSize * (v % sumSlots)) csumSize n)) o o (· = v) where
  block _ _ _ := rfl
  data w hw hne x hx := update_of_ne (h.block_ne_sumBlock hx hc) ..
  sum w hw hne hsum := by
    refine hsum.step rfl rfl (fun x hx => ?_) fun x hx =>
      update_of_ne (h.block_ne_sumBlock hx hc) ..
    obtain ⟨c', hc'⟩ := hk.sumBlock h (hk.lt h hw hx) hx
    refine ⟨c', hc', hc', ?_⟩
    show loadLe (update s.clus c _ c') _ _ = _
    by_cases hblk : w / sumSlots = v / sumSlots
    · rw [hblk, hc] at hc'
      obtain rfl := Option.some.inj hc'
      rw [update_self]
      exact loadLe_storeLe_of_disjoint (slot_disjoint hne hblk)
    · rw [update_of_ne]
      rintro rfl
      have hlt : ∀ u < vlim true, u / sumSlots < vlim true := fun u hu =>
        (Nat.div_le_self u _).trans_lt hu
      exact hblk (keyByU64_inj (hlt w hw) (hlt v hv) (h.find_inj (i := true) hc' hc))

/-- The stored checksum is the checksum. -/
lemma sumOk_writeSum (h : Stored s o []) (hb : o.block v = some b) (hc : o.sumBlock (v / sumSlots) = some c) :
    SumOk (s.writeClu c (storeLe (s.clus c) (csumSize * (v % sumSlots)) csumSize (s.cluSum b))) o v := by
  intro b' c' hb' hc'
  rw [hb] at hb'
  rw [hc] at hc'
  obtain rfl := Option.some.inj hb'
  obtain rfl := Option.some.inj hc'
  have hsame : update s.clus c (storeLe (s.clus c) (csumSize * (v % sumSlots)) csumSize
      (s.cluSum b)) b = s.clus b := update_of_ne (h.block_ne_sumBlock hb hc) ..
  show loadLe (update s.clus c _ c) _ _ = (s.env.csum (slice (update s.clus c _ b) 0 blockSize)).toNat
  rw [update_self, hsame, loadLe_storeLe]
  exact Nat.mod_eq_of_lt (UInt64.toNat_lt _)

lemma inodeBlockCheckSum_run (hb : o.block v = some b) (hc : o.sumBlock (v / sumSlots) = some c)
    (hsum : SumOk s o v) : inodeBlockCheckSum (ibAt v b c) s = .ok (.ok (), s) := by
  have hok : loadLe (s.clus (ibAt v b c).sumBlock) (ibAt v b c).sumOff csumSize =
      s.cluSum (ibAt v b c).block := hsum b c hb hc
  unfold inodeBlockCheckSum
  rw [run_get, if_neg (not_not.mpr hok)]
  rfl

/-- Writing the inode. -/
lemma Keeps.writeInode (h : Stored s o []) (n : ℕ) (F : ℕ → Prop) :
    Keeps s (s.writeInode o.iblock { o with size := n }.disk) o { o with size := n } F := by
  have hne : ∀ {i : Bool} {k : Key} {x : ℕ}, find (o.tree i).map k = some x → x ≠ o.iblock :=
    fun hx heq => h.iblock_notMem (heq ▸ mem_held_of_find (h.tree _) hx)
  refine ⟨fun _ _ _ => rfl, fun w hw hF b hb => update_of_ne (hne (i := false) hb) ..,
    fun w hw hF hsum b c hb hc => ?_⟩
  show loadLe (update s.clus o.iblock _ c) _ _ =
    (s.env.csum (slice (update s.clus o.iblock _ b) 0 blockSize)).toNat
  rw [update_of_ne (hne (i := true) hc), update_of_ne (hne (i := false) hb)]
  exact hsum b c hb hc

/-- Writing the image of an inode takes memory. -/
lemma inodeWrite_spec {inode : Inode} (hblk : inode.block ≠ 0) : Runs (inodeWrite inode) s fun r s' =>
      (r = .ok () ∧ s' = (s.tried true).writeInode inode.block inode.toOnDisk) ∨
      (r = .error .enomem ∧ s' = s.tried false ∧ ¬ s.Ample 0) := by
  unfold inodeWrite
  rw [if_neg hblk]
  refine Runs.step (nextAlloc_run s) ?_
  cases hok : !s.env.fails s.tick with
  | true => exact Runs.intro rfl (Or.inl ⟨rfl, rfl⟩)
  | false =>
    refine Runs.intro rfl (Or.inr ⟨rfl, rfl, fun ha => ?_⟩)
    rw [ha.fails] at hok
    cases hok

lemma ObjStep.tried (h : Stored s o []) (ok : Bool) : ObjStep s (s.tried ok) o o where
  stored := h.away (TreeStep.tried s ok) fun _ _ => not_mem_nil
  step := ⟨[], (TreeStep.tried s ok).mono fun _ hx => absurd hx not_mem_nil, List.Perm.refl _⟩
  iblock := rfl
  ino := rfl
  root _ := rfl

lemma Keeps.tried (s : Sb) (o : Layout) (ok : Bool) (F : ℕ → Prop) : Keeps s (s.tried ok) o o F where
  block _ _ _ := rfl
  data _ _ _ _ _ := rfl
  sum _ _ _ h := h

/-- The object after a write that ends at `n`. -/
def Layout.grow (o : Layout) (n : ℕ) : Layout := { o with size := if n > o.size then n else o.size }

/-- **The size update**: the inode on disk and in memory have the new size, or an allocation
failed. -/
theorem sizeUpdate_run (h : Stored s o []) (n : ℕ) : Runs (sizeUpdate o.inode n) s fun r s' =>
    (r = ((o.grow n).inode, .ok ()) ∧ s'.allocFails = s.allocFails ∧ ObjStep s s' o (o.grow n) ∧
      Keeps s s' o (o.grow n) fun _ => False) ∨
    (∃ i e, r = (i, .error e) ∧ s.allocFails < s'.allocFails ∧ ¬ s.Ample 0 ∧ ObjStep s s' o o ∧
      Keeps s s' o o fun _ => False) := by
  unfold sizeUpdate
  rw [if_neg (fun hne => hne rfl)]
  by_cases hn : n > o.inode.size
  · have hgrow : o.grow n = { o with size := n } := by
      rw [Layout.grow, if_pos (show n > o.size from hn)]
    have hset : o.inode.setSize n = { o.inode with size := n, dirty := true } := if_pos hn.ne
    have hblk : o.iblock ≠ 0 := (h.owned_block o.iblock_mem).ne_zero
    rw [if_pos hn, hset, hgrow]
    show Runs (inodeWrite { o.inode with size := n, dirty := true } >>= _) s _
    refine Runs.bind (inodeWrite_spec hblk) ?_
    rintro _ _ (⟨rfl, rfl⟩ | ⟨rfl, rfl, hfull⟩)
    · refine Runs.pure (Or.inl ⟨rfl, rfl, ?_, ?_⟩)
      · exact (ObjStep.tried h true).trans (ObjStep.writeInode (ObjStep.tried h true).stored n)
      · exact (Keeps.tried s o true _).trans (Keeps.writeInode (ObjStep.tried h true).stored n _)
    · exact Runs.pure (Or.inr ⟨_, _, rfl, Nat.lt_succ_self _, hfull, ObjStep.tried h false,
        Keeps.tried s o false _⟩)
  · have hgrow : o.grow n = o := by
      rw [Layout.grow, if_neg (show ¬ n > o.size from hn)]
    rw [if_neg hn, hgrow]
    exact Runs.pure (Or.inl ⟨rfl, rfl, ObjStep.refl h, Keeps.refl s o _⟩)

end sums

/-! ### One block -/

/-- The invariant of an object: it is stored, its keys are block numbers below the limit with
checksum blocks, and every checksum holds. -/
structure ObjOk (s : Sb) (big : Bool) (o : Layout) : Prop where
  stored : Stored s o []
  keys : KeysOk big o
  sums : ∀ w < vlim true, SumOk s o w

/-- An operation that failed for want of memory or blocks, and left the object in order. -/
def Failed (s s' : Sb) (big : Bool) (o : Layout) : Prop :=
  ∃ o', ObjStep s s' o o' ∧ ObjOk s' big o' ∧ s.allocFails < s'.allocFails

/-- The bytes `src` were written to `[off, off + len)` of block `v`. -/
structure Wrote (s s' : Sb) (big : Bool) (o o' : Layout) (v off len : ℕ) (src : Mem) : Prop where
  step : ObjStep s s' o o'
  ok : ObjOk s' big o'
  keeps : Keeps s s' o o' (· = v)
  fails : s'.allocFails = s.allocFails
  bytes : ∃ b base, o'.block v = some b ∧ s'.clus b = copyIn base off src len ∧
    ∀ b₀, o.block v = some b₀ → base = s.clus b₀
  size : o'.size = (o.grow (u64 (v * blockSize + off + len))).size

section block

variable {s s' : Sb} {big : Bool} {o o' : Layout} {inode : Inode} {v b c : ℕ}

/-- The checksum store after a change of block `v`: all checksums hold again. -/
lemma ObjOk.writeSum (h : Stored s o []) (hk : KeysOk big o) (hv : v < vlim true)
    (hsums : ∀ w < vlim true, w ≠ v → SumOk s o w) (hb : o.block v = some b)
    (hc : o.sumBlock (v / sumSlots) = some c) :
    ObjStep s (s.writeClu c (storeLe (s.clus c) (csumSize * (v % sumSlots)) csumSize (s.cluSum b))) o o ∧
    ObjOk (s.writeClu c (storeLe (s.clus c) (csumSize * (v % sumSlots)) csumSize (s.cluSum b))) big o := by
  have hstep := ObjStep.writeValue (i := true) h (TreeStep.writeClu s c
    (storeLe (s.clus c) (csumSize * (v % sumSlots)) csumSize (s.cluSum b)))
    (mem_values_of_find (h.tree true) hc)
  refine ⟨hstep, hstep.stored, hk, fun w hw => ?_⟩
  by_cases hne : w = v
  · subst hne
    exact sumOk_writeSum h hb hc
  · exact (Keeps.writeSum h hk hv hc _).sum w hw hne (hsums w hw hne)

/-- What `nkfs_inode_block_read_create` ends in. -/
def Opened (s : Sb) (big : Bool) (o : Layout) (v : ℕ) (r : Except Errno InodeBlock) (s' : Sb) : Prop :=
  (∃ o' b c, r = .ok (ibAt v b c) ∧ s'.allocFails = s.allocFails ∧ ObjStep s s' o o' ∧
    ObjOk s' big o' ∧ Keeps s s' o o' (· = v) ∧ o'.block v = some b ∧
    o'.sumBlock (v / sumSlots) = some c ∧ o'.size = o.size ∧
    ∀ b₀, o.block v = some b₀ → b₀ = b ∧ s'.clus b = s.clus b) ∨
  (∃ e, r = .error e ∧ Failed s s' big o ∧ ¬ s.Ample o.room)

lemma inodeBlockReadCreate_spec (h : ObjOk s big o) (hi : o.Trees inode) (hv : v < vlim big) :
    Ends (inodeBlockReadCreate inode v) s (Opened s big o v) (Late big s.allocFails) := by
  have hvt : v < vlim true := hv.trans_le (vlim_le big)
  unfold inodeBlockReadCreate
  cases hb : o.block v with
  | some b =>
    obtain ⟨c, hc⟩ := h.keys.sumBlock h.stored hv hb
    have hlt : v < 2 ^ 61 := hvt.trans_le (by decide)
    refine Ends.step (inodeBlockRead_some h.stored hi hlt hb hc) ?_
    refine Ends.step (inodeBlockCheckSum_run hb hc (h.sums v hvt)) (Runs.ends (Runs.pure ?_))
    refine Or.inl ⟨o, b, c, rfl, rfl, ObjStep.refl h.stored, h, Keeps.refl s o _, hb, hc, rfl, ?_⟩
    intro b₀ hb₀
    rw [hb] at hb₀
    exact ⟨(Option.some.inj hb₀).symm, rfl⟩
  | none =>
    refine Ends.step (inodeBlockRead_none h.stored hi hb) ?_
    refine Ends.bind (inodeBlockAlloc_spec h.stored h.keys hi hv hb) ?_
    intro r s₁ ha
    rcases ha.cases h.stored h.keys hv with ⟨o₁, b, c, rfl, hf, hstep, hk, hkeep, hb₁, hc₁, hsize⟩ |
      ⟨e, o₁, rfl, hf, hfull, hstep, hk, hkeep, -⟩
    · obtain ⟨hstep₂, hok⟩ := ObjOk.writeSum hstep.stored hk hvt
        (fun w hw hne => hkeep.sum w hw hne (h.sums w hw)) hb₁ hc₁
      refine Ends.step inodeBlockWrite_run (Runs.ends (Runs.pure ?_))
      refine Or.inl ⟨o₁, b, c, rfl, hf, hstep.trans hstep₂, hok,
        hkeep.trans (Keeps.writeSum hstep.stored hk hvt hc₁ _), hb₁, hc₁, hsize, ?_⟩
      intro b₀ hb₀
      rw [hb] at hb₀
      cases hb₀
    · refine Runs.ends (Runs.pure (Or.inr ⟨e, rfl, ⟨o₁, hstep, ⟨hstep.stored, hk, ?_⟩, hf⟩, hfull⟩))
      exact fun w hw => hkeep.sum w hw id (h.sums w hw)

/-- **Writing one block.** The bytes are written, all checksums hold and the size is updated, or an
allocation failed and the object is in order. -/
theorem writeBlockBuf_spec (h : ObjOk s big o) (hv : v < vlim big) {off pos len : ℕ} (buf : Mem)
    (hlen : off + len ≤ blockSize) : Ends (writeBlockBuf o.inode v off buf pos len) s (fun r s' =>
      (∃ o', r = (o'.inode, buf, .ok (len, false)) ∧
        Wrote s s' big o o' v off len fun i => buf (pos + i)) ∨
      (∃ i e, r = (i, buf, .error e) ∧ Failed s s' big o ∧ ¬ s.Ample o.room))
      (Late big s.allocFails) := by
  have hvt : v < vlim true := hv.trans_le (vlim_le big)
  unfold writeBlockBuf
  rw [if_neg (not_lt.mpr hlen)]
  refine Ends.bind (inodeBlockReadCreate_spec h ⟨rfl, rfl⟩ hv) ?_
  rintro _ s₁ (⟨o₁, b, c, rfl, hf₁, hstep₁, hok₁, hkeep₁, hb₁, hc₁, hsize₁, hold⟩ | ⟨e, rfl, hfail⟩)
  swap
  · exact Runs.ends (Runs.pure (Or.inr ⟨_, e, rfl, hfail⟩))
  -- the bytes
  refine Ends.step (cluWrite_run off buf pos len) ?_
  have hstep₂ := ObjStep.writeValue (i := false) hok₁.stored (TreeStep.writeClu s₁ b
    (copyIn (s₁.clus b) off (fun i => buf (pos + i)) len))
    (mem_values_of_find (hok₁.stored.tree false) hb₁)
  have hkeep₂ := Keeps.writeData hok₁.stored hok₁.keys hvt hb₁
    (copyIn (s₁.clus b) off (fun i => buf (pos + i)) len)
  have hclus₂ : (s₁.writeClu b (copyIn (s₁.clus b) off (fun i => buf (pos + i)) len)).clus b =
      copyIn (s₁.clus b) off (fun i => buf (pos + i)) len := Function.update_self ..
  have hf₂ : (s₁.writeClu b (copyIn (s₁.clus b) off (fun i => buf (pos + i)) len)).allocFails =
      s.allocFails := hf₁
  generalize s₁.writeClu b (copyIn (s₁.clus b) off (fun i => buf (pos + i)) len) = s₂ at *
  -- the checksum
  refine Ends.step inodeBlockWrite_run ?_
  obtain ⟨hstep₃, hok₃⟩ := ObjOk.writeSum hstep₂.stored hok₁.keys hvt
    (fun w hw hne => hkeep₂.sum w hw hne (hok₁.sums w hw)) hb₁ hc₁
  have hkeep₃ := Keeps.writeSum hstep₂.stored hok₁.keys hvt hc₁ (s₂.cluSum b)
  have hclus₃ : (s₂.writeClu c (storeLe (s₂.clus c) (csumSize * (v % sumSlots)) csumSize
      (s₂.cluSum b))).clus b = s₂.clus b :=
    Function.update_of_ne (hok₁.stored.block_ne_sumBlock hb₁ hc₁) ..
  have hf₃ : (s₂.writeClu c (storeLe (s₂.clus c) (csumSize * (v % sumSlots)) csumSize
      (s₂.cluSum b))).allocFails = s.allocFails := hf₂
  have hstep := (hstep₁.trans hstep₂).trans hstep₃
  have hkeep := (hkeep₁.trans hkeep₂).trans hkeep₃
  generalize s₂.writeClu c (storeLe (s₂.clus c) (csumSize * (v % sumSlots)) csumSize (s₂.cluSum b)) =
    s₃ at *
  -- the size
  rw [← hstep₁.inode_eq hsize₁]
  refine Ends.bind (sizeUpdate_run hok₃.stored (u64 (v * blockSize + off + len))).ends ?_
  rintro _ s' (⟨rfl, hf, hstep', hkeep'⟩ | ⟨i, e, rfl, hf, hfull, hstep', hkeep'⟩)
  · refine Runs.ends (Runs.pure (Or.inl ⟨_, rfl, hstep.trans hstep', ⟨hstep'.stored,
      ⟨hok₃.keys.data, hok₃.keys.sum⟩, fun w hw => hkeep'.sum w hw id (hok₃.sums w hw)⟩,
      hkeep.trans (hkeep'.mono fun _ => False.elim), hf.trans hf₃, ⟨b, s₁.clus b, hb₁, ?_, ?_⟩, ?_⟩))
    · rw [hkeep'.data v hvt id b hb₁, hclus₃, hclus₂]
    · intro b₀ hb₀
      obtain ⟨rfl, hclus⟩ := hold b₀ hb₀
      exact hclus
    · rw [Layout.grow, Layout.grow, hsize₁]
  · refine Runs.ends (Runs.pure (Or.inr ⟨i, e, rfl, ⟨o₁, hstep.trans hstep', ⟨hstep'.stored, hok₃.keys,
      fun w hw => hkeep'.sum w hw id (hok₃.sums w hw)⟩, hf₃ ▸ hf⟩, fun ha => hfull ?_⟩))
    exact ⟨hstep.env ▸ ha.fails, hstep.env ▸ ha.covers, Nat.zero_le _⟩

end block

end Nkfs
