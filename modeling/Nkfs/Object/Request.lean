import Nkfs.Object.Io

/-!
# Requests on an object

A write request runs through its pieces, each a write of one block (`runChunks_write`); a read
request changes nothing but the pages it fills (`readBlockBuf_run`). `Held` is the byte array that
an object holds: its size, and for every byte below the size a mapped block with that byte. A write
that starts at or below the size makes the array grow as an array does (`WroteAll.held`), and a read
returns its bytes (`runChunks_readIn`).
-/

namespace Nkfs

open Lib.Bytes Lib.Program

/-! ### Writing -/

/-- The pieces were written one after the other. -/
inductive WroteAll (big : Bool) (pages : ℕ → Mem) : Sb → Layout → List Chunk → Sb → Layout → Prop
  | nil {s : Sb} {o : Layout} : WroteAll big pages s o [] s o
  | cons {s s₁ s' : Sb} {o o₁ o' : Layout} {c : Chunk} {cs : List Chunk} :
      Wrote s s₁ big o o₁ c.vblock c.off c.len (fun i => pages c.page (c.pos + i)) →
      WroteAll big pages s₁ o₁ cs s' o' → WroteAll big pages s o (c :: cs) s' o'

/-- The number of bytes of the pieces. -/
def chunkLen (cs : List Chunk) : ℕ := (cs.map Chunk.len).sum

section write

variable {s s' : Sb} {big : Bool} {o o' : Layout} {cs : List Chunk} {pages : ℕ → Mem} {sum : ℕ}

lemma WroteAll.ok (hw : WroteAll big pages s o cs s' o') (h : ObjOk s big o) :
    ObjStep s s' o o' ∧ ObjOk s' big o' ∧ s'.allocFails = s.allocFails := by
  induction hw with
  | nil => exact ⟨ObjStep.refl h.stored, h, rfl⟩
  | cons hw _ ih =>
    obtain ⟨hstep, hok, hf⟩ := ih hw.ok
    exact ⟨hw.step.trans hstep, hok, hf.trans hw.fails⟩

/-- **A write request** writes its pieces, or an allocation fails and the object is in order. -/
theorem runChunks_write (h : ObjOk s big o)
    (hcs : ∀ c ∈ cs, c.vblock < vlim big ∧ c.off + c.len ≤ blockSize) :
    Ends (runChunks true doneIo cs o.inode pages sum) s (fun r s' =>
      (∃ o', r = (o'.inode, pages, .ok (sum + chunkLen cs)) ∧ WroteAll big pages s o cs s' o') ∨
      (∃ i e, r = (i, pages, .error e) ∧ cs ≠ [] ∧ Failed s s' big o ∧
        (cs.length = 1 → ¬ s.Ample o.room)))
      (Late big s.allocFails) := by
  induction cs generalizing s o sum with
  | nil => exact Runs.ends (Runs.pure (Or.inl ⟨o, rfl, WroteAll.nil⟩))
  | cons c cs ih =>
    obtain ⟨hv, hlen⟩ := hcs c (List.mem_cons_self ..)
    refine Ends.bind (writeBlockBuf_spec h hv (pages c.page) hlen) ?_
    rintro _ s₁ (⟨o₁, rfl, hw⟩ | ⟨i, e, rfl, hfail, hfull⟩)
    · show Ends (if false = true then _ else if c.len ≠ c.len then _ else
        runChunks true doneIo cs o₁.inode (Function.update pages c.page (pages c.page))
          (sum + c.len)) s₁ _ _
      rw [if_neg Bool.false_ne_true, if_neg (not_not.mpr rfl), Function.update_eq_self]
      refine (ih hw.ok fun c hc => hcs c (List.mem_cons_of_mem _ hc)).mono ?_
        (Late.mono hw.fails.ge)
      rintro _ s' (⟨o', rfl, hall⟩ | ⟨i, e, rfl, hne, ⟨o', hstep, hok, hf⟩, -⟩)
      · refine Or.inl ⟨o', ?_, WroteAll.cons hw hall⟩
        rw [chunkLen, chunkLen, List.map_cons, List.sum_cons, Nat.add_assoc]
      · refine Or.inr ⟨i, e, rfl, List.cons_ne_nil c cs, ⟨o', hw.step.trans hstep, hok,
          hw.fails ▸ hf⟩, fun hone => absurd ?_ hne⟩
        exact List.eq_nil_of_length_eq_zero (by simpa using hone)
    · refine Runs.ends (Runs.pure (Or.inr ⟨i, e, ?_, List.cons_ne_nil c cs, hfail, fun _ => hfull⟩))
      rw [Function.update_eq_self]

end write

/-! ### The byte array of an object -/

/-- The bytes of a list of pages. -/
def flat (pages : ℕ → Mem) : Mem := fun p => pages (p / pageSize) (p % pageSize)

/-- The bytes in `R` are those of `data`, in mapped blocks. -/
def HeldIn (s : Sb) (o : Layout) (R : ℕ → Prop) (data : Mem) : Prop :=
  ∀ t, R t → ∃ b, o.block (t / blockSize) = some b ∧ s.clus b (t % blockSize) = data t

/-- Every byte below the size is the byte of `data` in a mapped block. -/
def Held (s : Sb) (o : Layout) (data : Mem) : Prop :=
  ∀ t < o.size, ∃ b, o.block (t / blockSize) = some b ∧ s.clus b (t % blockSize) = data t

section array

variable {s s' : Sb} {big : Bool} {o o' : Layout} {cs : List Chunk} {c : Chunk} {pages : ℕ → Mem}
  {data : Mem} {off p len sum : ℕ}

lemma Chunk.At.flat_eq (hat : c.At off p) (pages : ℕ → Mem) {i : ℕ} (hi : i < c.len) :
    flat pages (p + i) = pages c.page (c.pos + i) := by
  have hpage : c.pos + c.len ≤ 4096 := hat.page
  have hp : c.page * 4096 + c.pos = p := hat.pos_eq
  show pages ((p + i) / 4096) ((p + i) % 4096) = _
  rw [show (p + i) / 4096 = c.page by omega, show (p + i) % 4096 = c.pos + i by omega]

/-- A byte of the object that the piece covers. -/
lemma Chunk.At.covers (hat : c.At off p) {t : ℕ} (ht : off ≤ t) (hlt : t < off + c.len) :
    t / blockSize = c.vblock ∧ t % blockSize = c.off + (t - off) := by
  have hblk : c.off + c.len ≤ 65536 := hat.block
  have hoff : c.vblock * 65536 + c.off = off := hat.off_eq
  show t / 65536 = c.vblock ∧ t % 65536 = c.off + (t - off)
  omega

/-- A byte of the piece's block that the piece does not cover. -/
lemma Chunk.At.outside (hat : c.At off p) {t : ℕ} (hv : t / blockSize = c.vblock)
    (hout : ¬ (off ≤ t ∧ t < off + c.len)) :
    t % blockSize < c.off ∨ c.off + c.len ≤ t % blockSize := by
  have hoff : c.vblock * 65536 + c.off = off := hat.off_eq
  have hv : t / 65536 = c.vblock := hv
  show t % 65536 < c.off ∨ c.off + c.len ≤ t % 65536
  omega

/-- An object is no larger than its device. -/
lemma Held.size_le {ps : List ℕ} (h : Stored s o ps) (hheld : Held s o data)
    (hdev : s.env.nrBlocks * blockSize < 2 ^ 63) : o.size ≤ s.env.nrBlocks * blockSize := by
  by_contra hlt
  rw [not_le] at hlt
  have hdev' : s.env.nrBlocks * 65536 < 2 ^ 63 := hdev
  -- one block more than the device has would be mapped
  have hmap : ∀ v ∈ Finset.range (s.env.nrBlocks + 1), ∃ b ∈ Finset.range s.env.nrBlocks,
      o.block v = some b := by
    intro v hv
    rw [Finset.mem_range] at hv
    have hle : v * blockSize ≤ s.env.nrBlocks * blockSize :=
      Nat.mul_le_mul_right _ (Nat.lt_succ_iff.mp hv)
    obtain ⟨b, hb, -⟩ := hheld (v * blockSize) (hle.trans_lt hlt)
    rw [Nat.mul_div_cancel v (show 0 < blockSize by decide)] at hb
    exact ⟨b, Finset.mem_range.mpr (h.block_owned hb).lt, hb⟩
  choose! f hf hblock using hmap
  obtain ⟨u, hu, v, hv, hne, heq⟩ := Finset.exists_ne_map_eq_of_card_lt_of_maps_to (by simp) hf
  have hlim : ∀ w ∈ Finset.range (s.env.nrBlocks + 1), w < vlim true := by
    intro w hw
    rw [Finset.mem_range] at hw
    show w < 2 ^ 48 + 1
    omega
  exact h.block_ne (hlim v hv) (hlim u hu) hne (hblock v hv) (hblock u hu) heq

lemma Wrote.size_eq (hw : Wrote s s' big o o' c.vblock c.off c.len fun i => pages c.page (c.pos + i))
    (hat : c.At off p) (hwrap : off + c.len < 2 ^ 64) : o'.size = max o.size (off + c.len) := by
  rw [hw.size, Layout.grow, hat.off_eq, show u64 (off + c.len) = off + c.len from
    Nat.mod_eq_of_lt (by omega)]
  show (if off + c.len > o.size then off + c.len else o.size) = _
  split_ifs <;> omega

/-- One piece of a write. -/
lemma Wrote.heldIn (hw : Wrote s s' big o o' c.vblock c.off c.len fun i => pages c.page (c.pos + i))
    (hat : c.At off p) {R : ℕ → Prop} (hlim : ∀ t, R t → t < 2 ^ 64) (hheld : HeldIn s o R data) :
    HeldIn s' o' (fun t => R t ∨ off ≤ t ∧ t < off + c.len)
      (copyIn data off (fun i => flat pages (p + i)) c.len) := by
  intro t ht
  obtain ⟨b, base, hb, hclus, hbase⟩ := hw.bytes
  by_cases hin : off ≤ t ∧ t < off + c.len
  · obtain ⟨hdiv, hmod⟩ := hat.covers hin.1 hin.2
    refine ⟨b, by rw [hdiv, hb], ?_⟩
    obtain ⟨i, rfl⟩ := Nat.exists_eq_add_of_le hin.1
    have hi : i < c.len := by omega
    rw [hmod, hclus, Nat.add_sub_cancel_left, copyIn_add hi, copyIn_add hi, hat.flat_eq pages hi]
  · have hold : copyIn data off (fun i => flat pages (p + i)) c.len t = data t := by
      rw [copyIn, if_neg hin]
    have hR := ht.resolve_right hin
    have hlt := hlim t hR
    obtain ⟨b₀, hb₀, hdata⟩ := hheld t hR
    rw [hold]
    by_cases hv : t / blockSize = c.vblock
    · rw [hv] at hb₀
      refine ⟨b, by rw [hv, hb], ?_⟩
      rw [hclus, ← hdata, ← hbase b₀ hb₀]
      rcases hat.outside hv hin with hlt | hge
      · exact copyIn_of_lt hlt
      · exact copyIn_of_ge hge
    · have hlim : t / blockSize < vlim true := by
        show t / 65536 < 2 ^ 48 + 1
        omega
      refine ⟨b₀, by rw [hw.keeps.block _ hlim hv, hb₀], ?_⟩
      rw [hw.keeps.data _ hlim hv b₀ hb₀, hdata]

/-- A write request makes the object as large as its end. -/
lemma WroteAll.size_eq (hw : WroteAll big pages s o cs s' o') (hcuts : Cuts cs off p len)
    (hpos : off ≤ o.size ∨ 0 < len) (hwrap : off + len < 2 ^ 64) : o'.size = max o.size (off + len) := by
  induction hw generalizing off p len with
  | nil =>
    obtain rfl : len = 0 := hcuts
    omega
  | @cons s s₁ s' o o₁ o' c cs hw _ ih =>
    obtain ⟨hat, hle, hcuts⟩ := hcuts
    have hsize₁ := hw.size_eq hat (by omega)
    have hsize' := ih hcuts (by omega) (by omega)
    omega

/-- A write request overwrites its range. -/
lemma WroteAll.heldIn (hw : WroteAll big pages s o cs s' o') (hcuts : Cuts cs off p len)
    (hwrap : off + len < 2 ^ 64) {R : ℕ → Prop} (hlim : ∀ t, R t → t < 2 ^ 64) (hheld : HeldIn s o R data) :
    HeldIn s' o' (fun t => R t ∨ off ≤ t ∧ t < off + len)
      (copyIn data off (fun i => flat pages (p + i)) len) := by
  induction hw generalizing off p len data R with
  | nil =>
    obtain rfl : len = 0 := hcuts
    rw [copyIn_none]
    exact fun t ht => hheld t (ht.resolve_right (by omega))
  | @cons s s₁ s' o o₁ o' c cs hw _ ih =>
    obtain ⟨hat, hle, hcuts⟩ := hcuts
    have hheld₁ := hw.heldIn hat hlim hheld
    have hlim₁ : ∀ t, (R t ∨ off ≤ t ∧ t < off + c.len) → t < 2 ^ 64 := by
      rintro t (ht | ht)
      · exact hlim t ht
      · omega
    have hheld' := ih hcuts (by omega) hlim₁ hheld₁
    have happ := copyIn_append data (fun i => flat pages (p + i)) off c.len (len - c.len)
    simp only [← add_assoc] at happ
    rw [happ, Nat.add_sub_cancel' hle] at hheld'
    intro t ht
    refine hheld' t ?_
    rcases ht with ht | ht
    · exact .inl (.inl ht)
    · by_cases hc : t < off + c.len
      · exact .inl (.inr ⟨ht.1, hc⟩)
      · exact .inr (by omega)

/-- **A write request that starts at or below the size** overwrites its range and makes the object
as large as its end. -/
theorem WroteAll.held (hw : WroteAll big pages s o cs s' o') (hcuts : Cuts cs off p len)
    (hoff : off ≤ o.size) (hwrap : off + len < 2 ^ 64) (hsize : o.size < 2 ^ 64)
    (hheld : Held s o data) : o'.size = max o.size (off + len) ∧
      Held s' o' (copyIn data off (fun i => flat pages (p + i)) len) := by
  have hsize' := hw.size_eq hcuts (.inl hoff) hwrap
  refine ⟨hsize', fun t ht => ?_⟩
  exact hw.heldIn hcuts hwrap (fun t ht => lt_trans ht hsize) hheld t (by omega)

/-! ### Reading -/

/-- The inode in memory with `k` read holds. -/
def Layout.heldInode (o : Layout) (k : ℕ) : Inode := { o.inode with readers := k }

/-- A read beyond the size. -/
lemma readBlockBuf_erange {v off' pos len' k : ℕ} {buf : Mem} (hlen : off' + len' ≤ blockSize)
    (hgt : o.size < u64 (v * blockSize + off')) :
    readBlockBuf (o.heldInode k) v off' buf pos len' s = .ok ((o.heldInode k, buf, .error .erange), s) := by
  unfold readBlockBuf
  rw [if_neg (not_lt.mpr hlen), if_pos (show _ > (o.heldInode k).size from hgt)]
  rfl

/-- A read at the size. -/
lemma readBlockBuf_eof {v off' pos len' k : ℕ} {buf : Mem} (hlen : off' + len' ≤ blockSize)
    (heq : u64 (v * blockSize + off') = o.size) :
    readBlockBuf (o.heldInode k) v off' buf pos len' s = .ok ((o.heldInode k, buf, .ok (0, true)), s) := by
  unfold readBlockBuf
  rw [if_neg (not_lt.mpr hlen), if_neg (show ¬ _ > (o.heldInode k).size from heq.not_gt),
    if_pos (show _ = (o.heldInode k).size from heq)]
  rfl

/-- A read in a hole. -/
lemma readBlockBuf_hole {v off' pos len' k : ℕ} {buf : Mem} {ps : List ℕ} (h : Stored s o ps)
    (hlen : off' + len' ≤ blockSize) (hlt : u64 (v * blockSize + off') < o.size)
    (hb : o.block v = none) : readBlockBuf (o.heldInode k) v off' buf pos len' s =
      .ok ((o.heldInode (k + 1), buf, .error .enoent), s) := by
  unfold readBlockBuf
  rw [if_neg (not_lt.mpr hlen), if_neg (show ¬ _ > (o.heldInode k).size from hlt.not_gt),
    if_neg (show ¬ _ = (o.heldInode k).size from hlt.ne)]
  exact run_bind_ok (inodeBlockRead_none h ⟨rfl, rfl⟩ hb)

/-- A read below the size in a mapped block: the bytes up to the size. -/
lemma readBlockBuf_run {v off' len' b : ℕ} (buf : Mem) (pos k : ℕ) (h : ObjOk s big o)
    (hv : v < vlim true) (hlen : off' + len' ≤ blockSize) (hlt : u64 (v * blockSize + off') < o.size)
    (hb : o.block v = some b) : ∃ n eof,
      readBlockBuf (o.heldInode k) v off' buf pos len' s = .ok ((o.heldInode (k + 1),
        copyIn buf pos (fun i => s.clus b (off' + i)) n, .ok (n, eof)), s) ∧
      eof = decide (u64 (u64 (v * blockSize + off') + len') ≥ o.size) ∧
      n = if u64 (u64 (v * blockSize + off') + len') ≥ o.size then
        o.size - u64 (v * blockSize + off') else len' := by
  obtain ⟨c, hc⟩ := h.keys.sumBlock h.stored (h.keys.lt h.stored hv hb) hb
  refine ⟨_, _, ?_, rfl, rfl⟩
  unfold readBlockBuf
  rw [if_neg (not_lt.mpr hlen), if_neg (show ¬ _ > (o.heldInode k).size from hlt.not_gt),
    if_neg (show ¬ _ = (o.heldInode k).size from hlt.ne)]
  refine (run_bind_ok (inodeBlockRead_some h.stored ⟨rfl, rfl⟩ (hv.trans_le (by decide)) hb hc)).trans ?_
  refine (run_bind_ok (inodeBlockCheckSum_run hb hc (h.sums v hv))).trans ?_
  exact run_get

/-- Filling the piece's part of its page. -/
lemma Chunk.At.flat_update (hat : c.At off p) (pages : ℕ → Mem) (src : Mem) {n : ℕ}
    (hn : n ≤ c.len) : flat (Function.update pages c.page (copyIn (pages c.page) c.pos src n)) =
      copyIn (flat pages) p src n := by
  have hpage : c.pos + c.len ≤ 4096 := hat.page
  have hp : c.page * 4096 + c.pos = p := hat.pos_eq
  funext q
  show Function.update pages c.page _ (q / 4096) (q % 4096) = copyIn (flat pages) p src n q
  by_cases hq : q / 4096 = c.page
  · rw [hq, Function.update_self, copyIn, copyIn]
    by_cases hin : p ≤ q ∧ q < p + n
    · rw [if_pos hin, if_pos (by omega), show q % 4096 - c.pos = q - p by omega]
    · rw [if_neg hin, if_neg (by omega), ← hq]
      rfl
  · rw [Function.update_of_ne hq, copyIn, if_neg (by omega)]
    rfl

/-- The bytes that a read request asks for and that are there. -/
def Asked (off len size : ℕ) : ℕ → Prop := fun t => off ≤ t ∧ t < off + len ∧ t < size

/-- **A read request that starts at or below the size** returns the bytes up to its end or the
size, whichever comes first, and changes nothing else. -/
theorem runChunks_readIn (h : ObjOk s big o) (hheld : HeldIn s o (Asked off len o.size) data) (hsize : o.size < 2 ^ 64)
    (hlast : o.size + pageSize ≤ 2 ^ 64 ∨ off + len < 2 ^ 64)
    (k : ℕ) (hcuts : Cuts cs off p len) (hoff : off ≤ o.size) : ∃ i pages',
      runChunks false doneIo cs (o.heldInode k) pages sum s =
        .ok ((i, pages', .ok (sum + min len (o.size - off))), s) ∧
      flat pages' = copyIn (flat pages) p (fun i => data (off + i)) (min len (o.size - off)) := by
  induction cs generalizing k off p len pages sum with
  | nil =>
    obtain rfl : len = 0 := hcuts
    refine ⟨o.heldInode k, pages, ?_, ?_⟩
    · rw [Nat.zero_min, Nat.add_zero]
      rfl
    · rw [Nat.zero_min, copyIn_none]
  | cons c cs ih =>
    obtain ⟨hat, hle, hcuts⟩ := hcuts
    have hu64 : u64 (c.vblock * blockSize + c.off) = off := by
      rw [hat.off_eq]
      exact Nat.mod_eq_of_lt (by omega)
    have hpage : c.pos + c.len ≤ 4096 := hat.page
    have hlast' : o.size + 4096 ≤ 2 ^ 64 ∨ off + len < 2 ^ 64 := hlast
    rcases hoff.eq_or_lt with heq | hlt
    · -- at the size
      refine ⟨o.heldInode k, Function.update pages c.page (pages c.page), ?_, ?_⟩
      · rw [← heq, Nat.sub_self, Nat.min_zero]
        exact run_bind_ok (readBlockBuf_eof hat.block (hu64.trans heq))
      · rw [← heq, Nat.sub_self, Nat.min_zero, copyIn_none, Function.update_eq_self]
    · obtain ⟨b, hb, -⟩ := hheld off ⟨le_rfl, Nat.lt_add_of_pos_right (hat.pos.trans_le hle), hlt⟩
      rw [(hat.covers le_rfl (Nat.lt_add_of_pos_right hat.pos)).1] at hb
      have hv : c.vblock < vlim true := by
        have hoffeq : c.vblock * 65536 + c.off = off := hat.off_eq
        show c.vblock < 2 ^ 48 + 1
        omega
      obtain ⟨n, eof, hrun, heof, hn⟩ := readBlockBuf_run (pages c.page) c.pos k h hv
        hat.block (hu64.trans_lt hlt) hb
      rw [hu64, show u64 (off + c.len) = off + c.len from Nat.mod_eq_of_lt (by omega)] at heof hn
      -- what was read is the array's
      have hsrc : ∀ m ≤ c.len, off + m ≤ o.size →
          flat (Function.update pages c.page
            (copyIn (pages c.page) c.pos (fun i => s.clus b (c.off + i)) m)) =
            copyIn (flat pages) p (fun i => data (off + i)) m := by
        intro m hm hms
        rw [hat.flat_update pages _ hm]
        refine copyIn_congr fun i hi => ?_
        obtain ⟨b', hb', hdata⟩ := hheld (off + i) ⟨by omega, by omega, by omega⟩
        obtain ⟨hdiv, hmod⟩ := hat.covers (t := off + i) (by omega) (by omega)
        rw [hdiv, hb] at hb'
        obtain rfl := Option.some.inj hb'
        rw [hmod, Nat.add_sub_cancel_left] at hdata
        exact hdata
      by_cases hend : off + c.len ≥ o.size
      · rw [if_pos hend] at hn
        rw [decide_eq_true hend] at heof
        subst heof
        have hmin : min len (o.size - off) = n := by omega
        rw [hmin]
        exact ⟨_, _, run_bind_ok hrun, hsrc n (by omega) (by omega)⟩
      · rw [if_neg hend] at hn
        rw [decide_eq_false hend] at heof
        subst heof hn
        obtain ⟨i, pages', hrest, hflat⟩ : ∃ i pages', runChunks false doneIo cs
            (o.heldInode (k + 1)) (Function.update pages c.page (copyIn (pages c.page) c.pos
              (fun i => s.clus b (c.off + i)) c.len)) (sum + c.len) s = .ok ((i, pages', _), s) ∧
            _ := ih (fun t ht => hheld t ⟨by have := ht.1; omega, by have := ht.2.1; omega, ht.2.2⟩) (by omega) (k + 1)
              hcuts (by omega)
        have hmin : c.len + min (len - c.len) (o.size - (off + c.len)) = min len (o.size - off) := by
          omega
        refine ⟨i, pages', ?_, ?_⟩
        · rw [Nat.add_assoc, hmin] at hrest
          refine (run_bind_ok hrun).trans ?_
          show (if false = true then _ else if c.len ≠ c.len then _ else _ : M PagesResult) s = _
          rw [if_neg Bool.false_ne_true, if_neg (not_not.mpr rfl)]
          exact hrest
        · have happ := copyIn_append (flat pages) (fun i => data (off + i)) p c.len
            (min (len - c.len) (o.size - (off + c.len)))
          simp only [← Nat.add_assoc] at happ
          rw [hflat, hsrc c.len le_rfl (by omega), happ, hmin]

/-- A read request changes nothing, whatever it finds. -/
lemma runChunks_read_quiet (h : ObjOk s big o) (k : ℕ)
    (hcs : ∀ c ∈ cs, c.vblock < vlim true ∧ c.off + c.len ≤ blockSize) :
    Runs (runChunks false doneIo cs (o.heldInode k) pages sum) s fun _ s' => s' = s := by
  induction cs generalizing k pages sum with
  | nil => exact Runs.pure rfl
  | cons c cs ih =>
    obtain ⟨hv, hlen⟩ := hcs c (List.mem_cons_self ..)
    rcases lt_trichotomy o.size (u64 (c.vblock * blockSize + c.off)) with hgt | heq | hlt
    · exact Runs.step (readBlockBuf_erange hlen hgt) (Runs.pure rfl)
    · exact Runs.step (readBlockBuf_eof hlen heq.symm) (Runs.pure rfl)
    cases hb : o.block c.vblock with
    | none => exact Runs.step (readBlockBuf_hole h.stored hlen hlt hb) (Runs.pure rfl)
    | some b =>
      obtain ⟨n, eof, hrun, heof, hn⟩ := readBlockBuf_run (pages c.page) c.pos k h hv hlen hlt hb
      refine Runs.step hrun ?_
      cases eof with
      | true => exact Runs.pure rfl
      | false =>
        rw [if_neg (of_decide_eq_false heof.symm)] at hn
        subst hn
        show Runs (if false = true then _ else if c.len ≠ c.len then _ else _) s _
        rw [if_neg Bool.false_ne_true, if_neg (not_not.mpr rfl)]
        exact ih (k + 1) fun c hc => hcs c (List.mem_cons_of_mem _ hc)

end array

end Nkfs
