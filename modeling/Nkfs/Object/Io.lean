import Nkfs.Object.Write

/-!
# Requests as lists of pieces

`nkfs_inode_io_pages` cuts a request at pages and `nkfs_inode_io_buf` cuts a page at blocks. Which
pieces they make depends on offset and length only: `pageChunks` lists them, and `ioPages_eq` says
that the two nested loops run through that list. `Cuts` is what the list is: consecutive pieces, each
inside one page and one block, from the first byte of the request to the last.
-/

namespace Nkfs

open Lib.Bytes Lib.Program Function List

/-! ### The pieces of a request -/

/-- `len` bytes at `off` of block `vblock` and at `pos` of page `page`. -/
structure Chunk where
  vblock : ℕ
  off : ℕ
  page : ℕ
  pos : ℕ
  len : ℕ

/-- The pieces that the loop of `nkfs_inode_io_buf` cuts. -/
def bufChunks (page : ℕ) : ℕ → ℕ → ℕ → ℕ → ℕ → List Chunk
  | 0, _, _, _, _ => []
  | fuel + 1, vblock, loff, pos, res =>
    if res = 0 then []
    else
      let llen := if res + loff > blockSize then blockSize - loff else res
      ⟨vblock, loff, page, pos, llen⟩ ::
        bufChunks page fuel (u64 (vblock + 1)) 0 (pos + llen) (res - llen)

/-- The pieces of a request that starts at the first byte of page `i`. -/
def pageChunks : ℕ → ℕ → ℕ → ℕ → List Chunk
  | 0, _, _, _ => []
  | nrPages + 1, off, len, i =>
    if len = 0 then []
    else
      let llen := if len > pageSize then pageSize else len
      bufChunks i (llen + 1) (off / blockSize) (off % blockSize) 0 llen ++
        pageChunks nrPages (u64 (off + llen)) (len - llen) (i + 1)

/-- Run through the pieces, then go on with `rest`. -/
def runChunks (write : Bool) (rest : Inode → (ℕ → Mem) → ℕ → M PagesResult) :
    List Chunk → Inode → (ℕ → Mem) → ℕ → M PagesResult
  | [], inode, pages, sum => rest inode pages sum
  | c :: cs, inode, pages, sum => do
    match ← ioBlockBuf write inode c.vblock c.off (pages c.page) c.pos c.len with
    | (inode, buf, .error e) => return (inode, Function.update pages c.page buf, .error e)
    | (inode, buf, .ok (ioCount, eof)) =>
      if eof then return (inode, Function.update pages c.page buf, .ok (sum + ioCount))
      else if c.len ≠ ioCount then stop .bug
      else runChunks write rest cs inode (Function.update pages c.page buf) (sum + ioCount)

/-- The end of a request. -/
def doneIo (inode : Inode) (pages : ℕ → Mem) (sum : ℕ) : M PagesResult :=
  return (inode, pages, .ok sum)

section flatten

variable {write : Bool} {rest : Inode → (ℕ → Mem) → ℕ → M PagesResult}

lemma runChunks_append : ∀ {cs ds : List Chunk} {inode : Inode} {pages : ℕ → Mem} {sum : ℕ},
    runChunks write rest (cs ++ ds) inode pages sum =
      runChunks write (runChunks write rest ds) cs inode pages sum
  | [], _, _, _, _ => rfl
  | c :: cs, ds, inode, pages, sum => by
    rw [cons_append, runChunks, runChunks]
    refine congrArg _ (funext fun r => ?_)
    obtain ⟨inode, buf, _ | ⟨ioCount, eof⟩⟩ := r
    · rfl
    · show (if eof then _ else if _ then _ else _) = (if eof then _ else if _ then _ else _)
      rw [runChunks_append]

/-- What `nkfs_inode_io_pages` does with the result of one page. -/
def afterPage (rest : Inode → (ℕ → Mem) → ℕ → M PagesResult) (pages : ℕ → Mem) (i llen sum : ℕ) :
    BufResult → M PagesResult
  | (inode, buf, .error e) => return (inode, Function.update pages i buf, .error e)
  | (inode, buf, .ok (ioCount, eof)) =>
    if eof then return (inode, Function.update pages i buf, .ok (sum + ioCount))
    else if ioCount ≠ llen then stop .bug
    else rest inode (Function.update pages i buf) (sum + ioCount)

/-- The loop over the blocks of one page. -/
lemma ioBufLoop_eq {pages : ℕ → Mem} {i llen total : ℕ} : ∀ {fuel : ℕ} {inode : Inode}
    {vblock loff : ℕ} {buf : Mem} {pos res sum : ℕ}, res < fuel → loff < blockSize →
    sum + res = llen →
    (ioBufLoop write fuel inode vblock loff buf pos res sum >>= afterPage rest pages i llen total) =
      runChunks write rest (bufChunks i fuel vblock loff pos res) inode (update pages i buf) (total + sum)
  | 0, _, _, _, _, _, _, _, hf, _, _ => absurd hf (Nat.not_lt_zero _)
  | fuel + 1, inode, vblock, loff, buf, pos, res, sum, hf, hloff, hsum => by
    rw [ioBufLoop, bufChunks]
    by_cases hres : res = 0
    · subst hres
      rw [add_zero] at hsum
      rw [if_pos rfl, if_pos rfl, runChunks, pure_bind, afterPage, if_neg Bool.false_ne_true,
        if_neg (not_not.mpr hsum)]
    · rw [if_neg hres, if_neg hres, runChunks, bind_assoc, update_self]
      have hlen : 0 < (if res + loff > blockSize then blockSize - loff else res) := by
        split_ifs <;> omega
      have hle : (if res + loff > blockSize then blockSize - loff else res) ≤ res := by
        split_ifs <;> omega
      generalize (if res + loff > blockSize then blockSize - loff else res) = l at *
      refine congrArg _ (funext fun r => ?_)
      obtain ⟨inode, buf', e | ⟨ioCount, eof⟩⟩ := r
      · show (pure (inode, update pages i buf', .error e) : M PagesResult) =
          pure (inode, update (update pages i buf) i buf', .error e)
        rw [update_idem]
      · show ((if eof then pure (inode, buf', .ok (sum + ioCount, true))
          else if l ≠ ioCount then stop .bug
          else ioBufLoop write fuel inode (u64 (vblock + 1)) 0 buf' (pos + l) (res - l)
            (sum + ioCount)) >>= afterPage rest pages i llen total) =
          (if eof then pure (inode, update (update pages i buf) i buf', .ok (total + sum + ioCount))
          else if l ≠ ioCount then stop .bug
          else runChunks write rest (bufChunks i fuel (u64 (vblock + 1)) 0 (pos + l) (res - l)) inode
            (update (update pages i buf) i buf') (total + sum + ioCount))
        cases eof with
        | true =>
          rw [if_pos rfl, if_pos rfl, pure_bind, afterPage, if_pos rfl, update_idem, add_assoc]
        | false =>
          rw [if_neg Bool.false_ne_true, if_neg Bool.false_ne_true]
          by_cases hcount : l ≠ ioCount
          · rw [if_pos hcount, if_pos hcount]
            rfl
          · rw [if_neg hcount, if_neg hcount]
            rw [not_not] at hcount
            subst hcount
            rw [ioBufLoop_eq (by omega) (by decide) (by omega), update_idem, add_assoc]

/-- The loop over the pages. -/
lemma ioPagesLoop_eq : ∀ {nrPages : ℕ} {inode : Inode} {off len : ℕ} {pages : ℕ → Mem} {i sum : ℕ},
    len ≤ nrPages * pageSize →
    ioPagesLoop write nrPages inode off 0 len pages i sum =
      runChunks write doneIo (pageChunks nrPages off len i) inode pages sum
  | 0, inode, off, len, pages, i, sum, hlen => by
    obtain rfl : len = 0 := by omega
    rfl
  | nrPages + 1, inode, off, len, pages, i, sum, hlen => by
    rw [ioPagesLoop, pageChunks]
    by_cases hzero : len = 0
    · rw [if_pos hzero, if_pos hzero]
      rfl
    · rw [if_neg hzero, if_neg hzero, add_zero, Nat.sub_zero, runChunks_append]
      have hle : len - (if len > pageSize then pageSize else len) ≤ nrPages * pageSize := by
        have : (nrPages + 1) * pageSize = nrPages * pageSize + pageSize := Nat.succ_mul ..
        split_ifs <;> omega
      generalize (if len > pageSize then pageSize else len) = l at *
      have hbuf : (ioBufLoop write (l + 1) inode (off / blockSize) (off % blockSize) (pages i) 0 l 0 >>=
          afterPage (runChunks write doneIo (pageChunks nrPages (u64 (off + l)) (len - l) (i + 1)))
            pages i l sum) = _ :=
        ioBufLoop_eq (Nat.lt_succ_self l) (Nat.mod_lt _ (by decide)) (zero_add l)
      rw [update_eq_self, add_zero sum] at hbuf
      rw [← hbuf]
      show ioBufLoop write (l + 1) inode (off / blockSize) (off % blockSize) (pages i) 0 l 0 >>= _ = _ >>= _
      refine congrArg _ (funext fun r => ?_)
      obtain ⟨inode, buf, _ | ⟨ioCount, eof⟩⟩ := r
      · rfl
      · show (if eof then _ else if ioCount ≠ l then _ else _) = afterPage _ _ _ _ _ _
        rw [afterPage, ioPagesLoop_eq hle]

/-- **A request runs through its pieces.** -/
theorem ioPages_eq {inode : Inode} {off len : ℕ} {pages : ℕ → Mem} {nrPages : ℕ}
    (hlen : len ≤ nrPages * pageSize) : ioPages write inode off 0 len pages nrPages =
      runChunks write doneIo (pageChunks nrPages off len 0) inode pages 0 := ioPagesLoop_eq hlen

end flatten

/-! ### What the pieces are -/

/-- The piece stands at `off` of the object and at `p` of the request, inside one block and one
page. -/
structure Chunk.At (c : Chunk) (off p : ℕ) : Prop where
  pos : 0 < c.len
  block : c.off + c.len ≤ blockSize
  page : c.pos + c.len ≤ pageSize
  off_eq : c.vblock * blockSize + c.off = off
  pos_eq : c.page * pageSize + c.pos = p

/-- Consecutive pieces of `len` bytes from `off` of the object and `p` of the request on. -/
def Cuts : List Chunk → ℕ → ℕ → ℕ → Prop
  | [], _, _, len => len = 0
  | c :: cs, off, p, len =>
    c.At off p ∧ c.len ≤ len ∧ Cuts cs (off + c.len) (p + c.len) (len - c.len)

section cuts

variable {off p : ℕ}

lemma Cuts.append : ∀ {cs ds : List Chunk} {off p n m : ℕ}, Cuts cs off p n →
    Cuts ds (off + n) (p + n) m → Cuts (cs ++ ds) off p (n + m)
  | [], ds, off, p, n, m, hc, hd => by
    obtain rfl : n = 0 := hc
    rw [zero_add]
    exact hd
  | c :: cs, ds, off, p, n, m, ⟨hat, hle, hc⟩, hd => by
    refine ⟨hat, hle.trans (Nat.le_add_right _ _), ?_⟩
    rw [Nat.sub_add_comm hle]
    refine hc.append ?_
    rw [add_assoc, add_assoc, Nat.add_sub_cancel' hle]
    exact hd

/-- Every piece lies in the range of the request. -/
lemma Cuts.mem : ∀ {cs : List Chunk} {off p n : ℕ}, Cuts cs off p n → ∀ c ∈ cs,
    0 < c.len ∧ c.off + c.len ≤ blockSize ∧ off ≤ c.vblock * blockSize + c.off ∧
      c.vblock * blockSize + c.off + c.len ≤ off + n
  | c :: cs, off, p, n, ⟨hat, hle, hc⟩, x, hx => by
    rcases mem_cons.mp hx with rfl | hx
    · exact ⟨hat.pos, hat.block, hat.off_eq.ge, by rw [hat.off_eq]; omega⟩
    · obtain ⟨h₁, h₂, h₃, h₄⟩ := hc.mem x hx
      exact ⟨h₁, h₂, by omega, by omega⟩

/-- The pieces of one page. -/
lemma bufChunks_cuts {page fuel vblock loff pos res off p : ℕ} (hf : res < fuel)
    (hloff : loff < blockSize) (hoff : vblock * blockSize + loff = off)
    (hwrap : off + res ≤ 2 ^ 64 + blockSize) (hp : page * pageSize + pos = p)
    (hpos : pos + res ≤ pageSize) : Cuts (bufChunks page fuel vblock loff pos res) off p res := by
  induction fuel generalizing vblock loff pos res off p with
  | zero => exact absurd hf (Nat.not_lt_zero _)
  | succ fuel ih =>
    rw [bufChunks]
    by_cases hres : res = 0
    · rw [if_pos hres]
      exact hres
    rw [if_neg hres]
    by_cases hcut : res + loff > blockSize
    · -- the piece ends with the block
      rw [if_pos hcut]
      have hnext : u64 (vblock + 1) = vblock + 1 := Nat.mod_eq_of_lt (by
        have hoff : vblock * 65536 + loff = off := hoff
        have hwrap : off + res ≤ 2 ^ 64 + 65536 := hwrap
        omega)
      have hmul : (vblock + 1) * blockSize = vblock * blockSize + blockSize := Nat.succ_mul ..
      simp only [Cuts, hnext]
      refine ⟨⟨?_, ?_, ?_, hoff, hp⟩, ?_, ?_⟩
      · show 0 < blockSize - loff
        omega
      · show loff + (blockSize - loff) ≤ blockSize
        omega
      · show pos + (blockSize - loff) ≤ pageSize
        omega
      · omega
      · exact ih (by omega) (Nat.zero_lt_of_lt hloff) (by omega) (by omega) (by omega) (by omega)
    · rw [if_neg hcut]
      simp only [Cuts, Nat.sub_self]
      refine ⟨⟨Nat.pos_of_ne_zero hres, ?_, hpos, hoff, hp⟩, le_rfl, ?_⟩
      · show loff + res ≤ blockSize
        omega
      · cases fuel with
        | zero => exact rfl
        | succ fuel =>
          rw [bufChunks, if_pos rfl]
          exact rfl

lemma pageChunks_zero : ∀ {nrPages off i : ℕ}, pageChunks nrPages off 0 i = []
  | 0, _, _ => rfl
  | _ + 1, _, _ => rfl

/-- The pieces of the first page of a request. -/
lemma pageChunks_head {l i : ℕ} (hl : l ≤ pageSize) (hoff : off < 2 ^ 64) :
    Cuts (bufChunks i (l + 1) (off / blockSize) (off % blockSize) 0 l) off (i * pageSize) l := by
  refine bufChunks_cuts (Nat.lt_succ_self l) (Nat.mod_lt _ (by decide)) ?_ ?_ (add_zero _) ?_
  · rw [mul_comm]
    exact Nat.div_add_mod off blockSize
  · have hl : l ≤ 4096 := hl
    show off + l ≤ 2 ^ 64 + 65536
    omega
  · rwa [zero_add]

/-- A request of at least one byte has a first piece. -/
lemma pageChunks_cons {nrPages len i : ℕ} (hn : 0 < nrPages) (hlen : 0 < len) (hoff : off < 2 ^ 64) :
    ∃ c cs, pageChunks nrPages off len i = c :: cs ∧ c.At off (i * pageSize) := by
  obtain ⟨n, rfl⟩ := Nat.exists_eq_succ_of_ne_zero hn.ne'
  rw [pageChunks, if_neg hlen.ne']
  have hl : (if len > pageSize then pageSize else len) ≤ pageSize := by
    split_ifs with hpage
    · exact le_rfl
    · exact not_lt.mp hpage
  have hpos : (if len > pageSize then pageSize else len) ≠ 0 := by
    split_ifs
    · decide
    · exact hlen.ne'
  have hcuts := pageChunks_head (i := i) hl hoff
  generalize (if len > pageSize then pageSize else len) = l at *
  cases hbuf : bufChunks i (l + 1) (off / blockSize) (off % blockSize) 0 l with
  | nil =>
    rw [hbuf] at hcuts
    exact absurd hcuts hpos
  | cons c cs =>
    rw [hbuf] at hcuts
    refine ⟨c, cs ++ pageChunks n (u64 (off + l)) (len - l) (i + 1), ?_, hcuts.1⟩
    show bufChunks i (l + 1) (off / blockSize) (off % blockSize) 0 l ++ _ = _
    rw [hbuf, cons_append]

/-- **The pieces of a request** that does not wrap around. -/
theorem pageChunks_cuts : ∀ {nrPages off len i : ℕ}, len ≤ nrPages * pageSize →
    off < 2 ^ 64 → off + len ≤ 2 ^ 64 → Cuts (pageChunks nrPages off len i) off (i * pageSize) len
  | 0, off, len, i, hlen, _, _ => by
    show len = 0
    omega
  | nrPages + 1, off, len, i, hlen, hoff, hwrap => by
    rw [pageChunks]
    by_cases hzero : len = 0
    · rw [if_pos hzero]
      exact hzero
    rw [if_neg hzero]
    have hmul : (nrPages + 1) * pageSize = nrPages * pageSize + pageSize := Nat.succ_mul ..
    by_cases hpage : len > pageSize
    · rw [if_pos hpage]
      have hnext : u64 (off + pageSize) = off + pageSize := Nat.mod_eq_of_lt (by omega)
      have hrest : Cuts (pageChunks nrPages (off + pageSize) (len - pageSize) (i + 1)) _ _ _ :=
        pageChunks_cuts (by omega) (by omega) (by omega)
      rw [show (i + 1) * pageSize = i * pageSize + pageSize from Nat.succ_mul ..] at hrest
      show Cuts (_ ++ pageChunks nrPages (u64 (off + pageSize)) (len - pageSize) (i + 1)) off
        (i * pageSize) len
      rw [hnext]
      have happ := (pageChunks_head le_rfl hoff).append hrest
      rwa [Nat.add_sub_cancel' hpage.le] at happ
    · rw [if_neg hpage]
      show Cuts (_ ++ pageChunks nrPages (u64 (off + len)) (len - len) (i + 1)) off
        (i * pageSize) len
      rw [Nat.sub_self, pageChunks_zero, List.append_nil]
      exact pageChunks_head (not_lt.mp hpage) hoff

/-- The pieces of any request stay below the limit that a `u64` offset sets. -/
lemma pageChunks_range : ∀ {nrPages off len i : ℕ}, off < 2 ^ 64 →
    ∀ c ∈ pageChunks nrPages off len i, c.vblock < vlim true ∧ c.off + c.len ≤ blockSize
  | 0, _, _, _, _, c, hc => absurd hc not_mem_nil
  | nrPages + 1, off, len, i, hoff, c, hc => by
    rw [pageChunks] at hc
    by_cases hzero : len = 0
    · rw [if_pos hzero] at hc
      exact absurd hc not_mem_nil
    rw [if_neg hzero] at hc
    have hl : (if len > pageSize then pageSize else len) ≤ 4096 := by
      split_ifs with hpage
      · exact le_rfl
      · exact not_lt.mp hpage
    rcases mem_append.mp hc with hc | hc
    · obtain ⟨hpos, hblk, -, hend⟩ := (pageChunks_head hl hoff).mem c hc
      refine ⟨?_, hblk⟩
      have hend : c.vblock * 65536 + c.off + c.len ≤ off + _ := hend
      show c.vblock < 2 ^ 48 + 1
      omega
    · exact pageChunks_range (Nat.mod_lt _ (by decide)) c hc

end cuts

end Nkfs
