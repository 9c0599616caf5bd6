import Nkfs.Btree.Size

/-!
# B-trees as finite maps

The abstract view of a tree is a map from keys to values. `Reached` runs a tree and its map side by
side: the tree is created, keys are inserted and deleted by calls that return, and other parts of
the system may run in between as long as they leave the tree's blocks alone. Every reached tree
satisfies the invariant and holds its map (`Reached.isTree`).

* `insertKey_findKey_refine_map`: insertion into any tree, and lookup in any reached tree, are the
  operations of the map;
* `deleteKey_refines_iff_roomy`: deletion is the operation of the map exactly where the descent for
  the key meets no node with fewer than `T` keys; elsewhere it runs into the page pointers
  (`not_forall_deleteKey_refines`).
-/

namespace Nkfs

open Lib.Program Lib.Assoc Function List

/-! ### Creating a tree -/

section create

variable {s : Sb}

/-- The root of a new tree. -/
def newRoot (w : ℕ) : Node := { Node.zero with block := w, leaf := true }

/-- A leaf without keys is a tree. -/
lemma isTree_newRoot {w : ℕ} (ho : s.Owned w) (hz : s.bm 0 = true) :
    IsTree (s.writeNode (newRoot w)) true w 1 [] [w] := by
  have hw : (s.writeNode (newRoot w)).nodes w = some (newRoot w) := Sb.writeNode_self
  have hent : entries (s.writeNode (newRoot w)).nodes 1 w = [] := by
    rw [entries_succ hw]
    rfl
  have hblk : blocks (s.writeNode (newRoot w)).nodes 1 w = [w] := by
    rw [blocks_succ hw]
    rfl
  refine ⟨Nat.one_pos, ⟨⟨_, hw, ⟨rfl, fun _ => rfl, Nat.zero_le _, Nat.zero_le _, rfl⟩, fun _ _ => trivial⟩,
    ?_, ?_, fun x hx => ?_⟩, hent, hblk, hz⟩
  · rw [hent]
    exact List.Pairwise.nil
  · rw [hblk]
    exact nodup_singleton w
  · rw [hblk, mem_singleton] at hx
    rw [hx]
    exact (TreeStep.writeNode _ _).owned ho

/-- A new tree is empty. -/
lemma btreeCreate_spec (hz : s.bm 0 = true) : Runs (btreeCreate 0) s fun r s' =>
    (∃ t, r = some t ∧ t.releasing = false ∧ TreeStep s s' [] [t.root] ∧
      IsTree s' true t.root 1 [] [t.root] ∧ s'.allocFails = s.allocFails) ∨
    (r = none ∧ TreeStep s s' [] [] ∧ s.allocFails < s'.allocFails ∧ ¬ s.Ample 1) := by
  unfold btreeCreate
  rw [if_neg (fun h => h rfl)]
  refine Runs.bind (nodeCreate_spec hz) ?_
  rintro _ s₁ (⟨w, rfl, hst, hw, hf⟩ | ⟨rfl, hst, hf, hfull⟩)
  · have ho := hst.owned_fresh hz (mem_singleton_self w)
    refine Runs.step (nodeWrite_run (n := newRoot w) ho fun _ => rfl)
      (Runs.pure (Or.inl ⟨⟨w, false⟩, rfl, rfl, ?_, isTree_newRoot ho (hst.marked hz), hf⟩))
    exact hst.andWrite (Or.inr (mem_singleton_self w))
  · exact Runs.pure (Or.inr ⟨rfl, hst, hf, hfull⟩)

end create

/-! ### Trees and their maps -/

section maps

variable {es : List (Key × ℕ)} {k : Key}

lemma find_put_eq_update (v : ℕ) : find (put k v es) = update (find es) k (some v) := by
  funext k'
  rw [find_put, update_apply]

lemma find_del_eq_update : find (del k es) = update (find es) k none := by
  funext k'
  rw [find_del, update_apply]

end maps

/-- Something else ran: the blocks of the tree stay allocated and hold what they held. -/
structure Untouched (s s' : Sb) (root : ℕ) : Prop where
  env : s'.env = s.env
  zero : s'.bm 0 = true
  same : ∀ {h es bs}, IsTree s true root h es bs → ∀ x ∈ bs, s'.nodes x = s.nodes x ∧ s'.bm x = true

/-- The map after an insertion that returned `r`. -/
def mapInsert (m : Key → Option ℕ) (k : Key) (v : ℕ) : Except Errno Unit → Key → Option ℕ
  | .ok () => Function.update m k (some v)
  | .error _ => m

/-- The map after a deletion that returned `r`. -/
def mapDelete (m : Key → Option ℕ) (k : Key) : Except Errno Unit → Key → Option ℕ
  | .ok () => Function.update m k none
  | .error _ => m

/-- In state `s` the tree `t` can be reached, with the operations on it returning what maps `m`. -/
inductive Reached : Sb → Tree → (Key → Option ℕ) → Prop
  | create {s s' : Sb} {t : Tree} (hz : s.bm 0 = true) (hrun : btreeCreate 0 s = .ok (some t, s')) :
      Reached s' t fun _ => none
  | insert {s s' : Sb} {t : Tree} {m : Key → Option ℕ} {k : Key} {v : ℕ} {replace : Bool}
      {r : Except Errno Unit} (h : Reached s t m) (hrun : insertKey t k v replace s = .ok (r, s')) :
      Reached s' t (mapInsert m k v r)
  | delete {s s' : Sb} {t : Tree} {m : Key → Option ℕ} {k : Key} {r : Except Errno Unit}
      (h : Reached s t m) (hrun : deleteKey t k s = .ok (r, s')) : Reached s' t (mapDelete m k r)
  | other {s s' : Sb} {t : Tree} {m : Key → Option ℕ} (h : Reached s t m)
      (hother : Untouched s s' t.root) : Reached s' t m

/-- The map after an insertion is that of the pairs afterwards. -/
lemma Inserted.mapInsert {k : Key} {v f f' : ℕ} {replace : Bool} {es es' : List (Key × ℕ)}
    {r : Except Errno Unit} (h : Inserted k v replace es es' f f' r) :
    find es' = mapInsert (find es) k v r := by
  cases r with
  | ok u => rw [h.1, find_put_eq_update, Nkfs.mapInsert]
  | error e => rw [h.1, Nkfs.mapInsert]

lemma mapDelete_deleteResult (es : List (Key × ℕ)) (k : Key) :
    mapDelete (find es) k (deleteResult es k) = find (del k es) := by
  rw [find_del_eq_update, deleteResult]
  cases hk : find es k with
  | none =>
    rw [mapDelete]
    funext k'
    by_cases hkk : k' = k
    · rw [hkk, update_self, hk]
    · rw [update_of_ne hkk]
  | some v => rfl

/-- A tree that nothing touched is still there. -/
lemma IsTree.untouched {s s' : Sb} {b h : ℕ} {es : List (Key × ℕ)} {bs : List ℕ}
    (ht : IsTree s true b h es bs) (hu : Untouched s s' b) : IsTree s' true b h es bs := by
  have hsame := hu.same ht
  rw [← ht.blocks_eq] at hsame
  obtain ⟨hent, hblk, hshape⟩ := subtree_congr fun x hx => (hsame x hx).1
  refine ⟨ht.pos, ⟨hshape _ ht.sub.shape, ?_, ?_, fun x hx => ?_⟩, hent.trans ht.entries_eq,
    hblk.trans ht.blocks_eq, hu.zero⟩
  · rw [hent]
    exact ht.sub.sorted
  · rw [hblk]
    exact ht.sub.nodup
  · rw [hblk] at hx
    have ho := ht.sub.owned x hx
    exact ⟨(hsame x hx).2, ho.ne_zero, hu.env ▸ ho.lt⟩

/-- **Reached trees** satisfy the invariant, with a key in an interior root, and hold their map. -/
theorem Reached.isTree {s : Sb} {t : Tree} {m : Key → Option ℕ} (h : Reached s t m) :
    t.releasing = false ∧ ∃ h es bs, IsTree s true t.root h es bs ∧ find es = m := by
  induction h with
  | create hz hrun =>
    rcases (btreeCreate_spec hz).result hrun with ⟨t, hr, hrel, -, ht, -⟩ | ⟨hr, -⟩
    · obtain rfl := Option.some.inj hr
      exact ⟨hrel, 1, [], _, ht, rfl⟩
    · cases hr
  | insert _ hrun ih =>
    obtain ⟨hrel, h, es, bs, ht, rfl⟩ := ih
    obtain ⟨h', es', bs', -, ht', -, -, hins, -⟩ := (insertKey_spec hrel ht _ _ _).result hrun
    exact ⟨hrel, h', es', bs', ht', hins.mapInsert⟩
  | @delete s s' t m k r _ hrun ih =>
    obtain ⟨hrel, h, es, bs, ht, rfl⟩ := ih
    -- a deletion that returns had room
    by_cases hroomy : Roomy s.nodes k (h - 1) t.root
    · obtain ⟨rfl, -, -, bs', ht', -⟩ := (deleteKey_roomy hrel ht k hroomy).result hrun
      exact ⟨hrel, h, del k es, bs', ht', (mapDelete_deleteResult es k).symm⟩
    · obtain ⟨e, t', he, -⟩ := deleteKey_stops hrel ht k hroomy
      rw [hrun] at he
      cases he
  | other _ hother ih =>
    obtain ⟨hrel, h, es, bs, ht, hm⟩ := ih
    exact ⟨hrel, h, es, bs, ht.untouched hother, hm⟩

/-! ### A device to run on -/

/-- A device of 65536 blocks with one bitmap block, on which nothing but the superblock and the
bitmap is allocated. -/
def blankSb : Sb where
  env :=
    { nrBlocks := 65536
      bmBlocks := 1
      csum := fun _ => 0
      nodeImage := fun _ m => m
      inodeImage := fun _ m => m
      fails := fun _ => false }
  bm b := decide (b < 2)
  usedBlocks := 2
  nodes _ := none
  inodes _ := none
  clus _ _ := 0
  inodesTree := { root := 0, releasing := false }
  stopping := false
  tick := 0
  allocFails := 0

lemma blankSb_ample : blankSb.Ample 60000 where
  fails _ := rfl
  covers := by decide
  free := by
    have hsub : Finset.Ico 2 65536 ⊆ blankSb.freeSet := by
      intro b hb
      rw [Finset.mem_Ico] at hb
      rw [Sb.freeSet, Finset.mem_filter, Finset.mem_range]
      exact ⟨hb.2, decide_eq_false (not_lt.mpr hb.1)⟩
    have hcard := Finset.card_le_card hsub
    rw [Nat.card_Ico] at hcard
    omega

/-- Trees of any size up to `2 T` can be reached, with keys and values of one's choice. -/
lemma exists_reached (key : ℕ → Key) (hkey : ∀ i j, i < j → j < 2 * btreeT → key i ≠ key j) :
    ∀ n ≤ 2 * btreeT, ∃ s t h es bs, Reached s t (find es) ∧ IsTree s true t.root h es bs ∧
      es.length = n ∧ s.Ample (60000 - bs.length) ∧ ∀ x ∈ es, ∃ j < n, x.1 = key j
  | 0, _ => by
    obtain ⟨r, s', hrun, ⟨t, rfl, -, hst, ht, -⟩ | ⟨-, -, -, hfull⟩⟩ := btreeCreate_spec
      (s := blankSb) rfl
    · exact ⟨s', t, 1, [], _, .create (s := blankSb) rfl hrun, ht, rfl,
        hst.ample (blankSb_ample.mono (by simp)), fun x hx => absurd hx not_mem_nil⟩
    · exact absurd (blankSb_ample.mono (by decide)) hfull
  | n + 1, hn => by
    have hT : btreeT = 896 := rfl
    obtain ⟨s, t, h, es, bs, hreach, ht, hlen, hample, hkeys⟩ :=
      exists_reached key hkey n (n.le_succ.trans hn)
    have hrel := hreach.isTree.1
    have habs : find es (key n) = none := by
      rw [find_eq_none_iff]
      rintro x hx heq
      obtain ⟨j, hj, hxj⟩ := hkeys x hx
      exact hkey j n hj hn (hxj.symm.trans heq)
    have hbs := ht.blocks_length_le
    have hheight : h ≤ bs.length := ht.blocks_eq ▸ height_le_length ht.sub.shape
    obtain ⟨r, s', hrun, h', es', bs', fresh, ht', hst, hperm, hins, hroom⟩ :=
      insertKey_spec hrel ht (key n) 0 false
    have hfails := hroom (hample.mono (by omega))
    have hreach' := Reached.insert hreach hrun
    rw [← hins.mapInsert] at hreach'
    cases r with
    | error e =>
      rcases hins.2 with ⟨-, -, hne, -⟩ | ⟨-, hlt⟩
      · exact absurd habs hne
      · exact absurd hfails hlt.ne'
    | ok u =>
      have hes' : es' = put (key n) 0 es := hins.1
      have hlen' : es'.length = n + 1 := by
        rw [hes', length_put_of_find_none habs, hlen]
      have hbs' := ht'.blocks_length_le
      have hplen := hperm.length_eq
      rw [length_append] at hplen
      refine ⟨s', t, h', es', bs', hreach', ht', hlen', hst.ample (hample.mono ?_), ?_⟩
      · omega
      · intro x hx
        rw [hes', mem_put] at hx
        rcases hx with rfl | ⟨hx, -⟩
        · exact ⟨n, n.lt_succ_self, rfl⟩
        · obtain ⟨j, hj, hxj⟩ := hkeys x hx
          exact ⟨j, hj.trans n.lt_succ_self, hxj⟩

lemma keyByU64_ne {i j : ℕ} (hij : i < j) (hj : j < 2 * btreeT) : keyByU64 i ≠ keyByU64 j := by
  have hT : 2 * btreeT < 2 ^ 64 := by decide
  exact fun h => hij.ne (keyByU64_injective ((hij.trans hj).trans hT) (hj.trans hT) h)

/-! ### Insertion and lookup -/

/-- `nkfs_btree_insert_key` is insertion into the map. It returns and leaves a tree at the same root
block; without a failed allocation it puts the pair, or returns `-EEXIST` for a key that is there
and must not be replaced; with a failed one it returns an error and the map is as before. With two
blocks more than the tree is high none fails. -/
def InsertRefines (s : Sb) (strict : Bool) (t : Tree) (h : ℕ) (es : List (Key × ℕ)) (k : Key) (v : ℕ)
    (replace : Bool) : Prop :=
  ∃ r s' h' es' bs', insertKey t k v replace s = .ok (r, s') ∧ IsTree s' strict t.root h' es' bs' ∧
    (s'.allocFails = s.allocFails →
      if replace = true ∨ find es k = none then
        r = .ok () ∧ find es' = Function.update (find es) k (some v)
      else r = .error .eexist ∧ find es' = find es) ∧
    (s'.allocFails ≠ s.allocFails → (∃ e, r = .error e) ∧ find es' = find es) ∧
    (s.Ample (h + 2) → s'.allocFails = s.allocFails)

lemma TreeInserted.refines {s s' : Sb} {strict : Bool} {t : Tree} {h : ℕ} {es : List (Key × ℕ)}
    {bs : List ℕ} {k : Key} {v : ℕ} {replace : Bool} {r : Except Errno Unit}
    (hrun : insertKey t k v replace s = .ok (r, s'))
    (hpost : TreeInserted s strict t.root h es bs k v replace r s') :
    InsertRefines s strict t h es k v replace := by
  obtain ⟨h', es', bs', fresh, ht', hst, hperm, hins, hroom⟩ := hpost
  refine ⟨r, s', h', es', bs', hrun, ht', fun hf => ?_, fun hf => ?_, hroom⟩
  · cases r with
    | ok u =>
      obtain ⟨hes, hpre, -⟩ := hins
      rw [if_pos hpre, hes, find_put_eq_update]
      exact ⟨rfl, rfl⟩
    | error e =>
      obtain ⟨hes, ⟨rfl, hrep, hpres, -⟩ | ⟨-, hlt⟩⟩ := hins
      · rw [if_neg (not_or.mpr ⟨by rw [hrep]; exact Bool.false_ne_true, hpres⟩), hes]
        exact ⟨rfl, rfl⟩
      · exact absurd hf hlt.ne'
  · cases r with
    | ok u => exact absurd hins.2.2 hf
    | error e => exact ⟨⟨e, rfl⟩, by rw [hins.1]⟩

/-- **Insertion and lookup are those of a finite map.** Insertion into any tree, with a root of any
number of keys up to `2 T - 1`; lookup in every tree that can be reached. -/
theorem insertKey_findKey_refine_map :
    (∀ (s : Sb) (strict : Bool) (t : Tree) (h : ℕ) (es : List (Key × ℕ)) (bs : List ℕ),
      t.releasing = false → IsTree s strict t.root h es bs →
      ∀ (k : Key) (v : ℕ) (replace : Bool), InsertRefines s strict t h es k v replace) ∧
    (∀ (s : Sb) (t : Tree) (m : Key → Option ℕ), Reached s t m → ∀ k : Key,
      findKey t k s = .ok (match m k with | none => .error .enoent | some v => .ok v, s)) := by
  refine ⟨fun s strict t h es bs hrel ht k v replace => ?_, fun s t m hreach k => ?_⟩
  · obtain ⟨r, s', hrun, hpost⟩ := insertKey_spec hrel ht k v replace
    exact hpost.refines hrun
  · obtain ⟨hrel, h, es, bs, ht, rfl⟩ := hreach.isTree
    exact findKey_run hrel ht k

/-- A reached tree with three keys. -/
theorem insertKey_findKey_refine_map_threeKeys : ∃ s t h es bs, es.length = 3 ∧
    IsTree s true t.root h es bs ∧ InsertRefines s true t h es (keyByU64 7) 1 true ∧
    findKey t (keyByU64 7) s =
      .ok (match find es (keyByU64 7) with | none => .error .enoent | some v => .ok v, s) := by
  obtain ⟨s, t, h, es, bs, hreach, ht, hlen, -⟩ := exists_reached keyByU64
    (fun _ _ hij hj => keyByU64_ne hij hj) 3 (by decide)
  exact ⟨s, t, h, es, bs, hlen, ht,
    insertKey_findKey_refine_map.1 s true t h es bs hreach.isTree.1 ht _ _ _,
    insertKey_findKey_refine_map.2 s t _ hreach _⟩

/-! ### Deletion -/

/-- The blocks `bs` of a tree became `bs'`: the others were freed, each once, and no other block
changed its state. -/
structure BlocksFreed (s s' : Sb) (bs bs' : List ℕ) : Prop where
  subset : ∀ x ∈ bs', x ∈ bs
  bm : ∀ x, s'.bm x = if x ∈ bs ∧ x ∉ bs' then false else s.bm x
  used : s'.usedBlocks + bs.length = s.usedBlocks + bs'.length

/-- `nkfs_btree_delete_key` is deletion from the map. It returns, so no slot outside the arrays of a
node was accessed, with 0 or `-ENOENT`; it leaves a tree at the same root block that holds the map
without the key, and frees exactly the blocks that left the tree. -/
def DeleteRefines (s : Sb) (strict : Bool) (t : Tree) (es : List (Key × ℕ)) (bs : List ℕ) (k : Key) :
    Prop :=
  ∃ r s' h' es' bs', deleteKey t k s = .ok (r, s') ∧
    r = (if find es k = none then .error .enoent else .ok ()) ∧
    IsTree s' strict t.root h' es' bs' ∧ find es' = Function.update (find es) k none ∧
    BlocksFreed s s' bs bs'

/-- **Deletion is that of a finite map exactly where the descent has room.** -/
theorem deleteKey_refines_iff_roomy {s : Sb} {strict : Bool} {t : Tree} {h : ℕ}
    {es : List (Key × ℕ)} {bs : List ℕ} (hrel : t.releasing = false)
    (ht : IsTree s strict t.root h es bs) (k : Key) :
    DeleteRefines s strict t es bs k ↔ Roomy s.nodes k (h - 1) t.root := by
  constructor
  · rintro ⟨r, s', h', es', bs', hrun, -⟩
    by_contra hroomy
    obtain ⟨e, t', he, -⟩ := deleteKey_stops hrel ht k hroomy
    rw [hrun] at he
    cases he
  · intro hroomy
    obtain ⟨r, s', hrun, rfl, hst, -, bs', ht', hperm⟩ := deleteKey_roomy hrel ht k hroomy
    refine ⟨_, s', h, del k es, bs', hrun, ?_, ht', find_del_eq_update, ?_, fun x => ?_, ?_⟩
    · rw [deleteResult]
      cases find es k <;> rfl
    · exact fun x hx => hperm.mem_iff.mp hx
    · rw [hst.bm, if_neg fun hx => hx.2 (hperm.mem_iff.mpr hx.1)]
      simp
    · rw [hst.used, hperm.length_eq]
      simp

/-- Deleting a key of a tree that is one leaf. -/
theorem deleteKey_refines_threeKeys : ∃ s t h es bs, es.length = 3 ∧
    IsTree s true t.root h es bs ∧ DeleteRefines s true t es bs (keyByU64 1) := by
  obtain ⟨s, t, h, es, bs, hreach, ht, hlen, -⟩ := exists_reached keyByU64
    (fun _ _ hij hj => keyByU64_ne hij hj) 3 (by decide)
  refine ⟨s, t, h, es, bs, hlen, ht, (deleteKey_refines_iff_roomy hreach.isTree.1 ht _).mpr ?_⟩
  rw [ht.height_eq_one (by rw [hlen]; decide)]
  trivial

/-- Deletion does not refine the map on every tree: of `2 T` keys some cannot be deleted. -/
theorem not_forall_deleteKey_refines : ¬ ∀ (s : Sb) (strict : Bool) (t : Tree) (h : ℕ)
    (es : List (Key × ℕ)) (bs : List ℕ), t.releasing = false → IsTree s strict t.root h es bs →
    ∀ k, DeleteRefines s strict t es bs k := by
  intro hall
  obtain ⟨s, t, h, es, bs, hreach, ht, hlen, -⟩ := exists_reached keyByU64
    (fun _ _ hij hj => keyByU64_ne hij hj) (2 * btreeT) le_rfl
  have hrel := hreach.isTree.1
  obtain ⟨x, -, hroomy⟩ := ht.exists_not_roomy hlen
  obtain ⟨e, t', he, -⟩ := deleteKey_stops hrel ht x.1 hroomy
  obtain ⟨r, s', -, -, -, hrun, -⟩ := hall s true t h es bs hrel ht x.1
  rw [hrun] at he
  cases he

end Nkfs
