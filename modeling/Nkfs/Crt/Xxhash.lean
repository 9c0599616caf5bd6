import Nkfs.Lib.Absorb
import Nkfs.Net.Framing

/-!
# Checksums (`crt/xxhash.c`, `crt/csum.c`)

`XXH64` hashes a buffer in one call; `csum_update` takes it in pieces and keeps what does not fill a block of 32
bytes. The client sums its buffer at once, the kernel sums page by page, and the rest of the development takes a
checksum as a function of the bytes. That is right: the digest is `XXH64` of the pieces put together
(`xxh64_pieces`), and so is the sum over pages (`pagesDsum_flat`).
-/

namespace Nkfs.Xxh

open Lib.Absorb Lib.Bytes List

/-! ### Words -/

def prime1 : UInt64 := 11400714785074694791

def prime2 : UInt64 := 14029467366897019727

def prime3 : UInt64 := 1609587929392839161

def prime4 : UInt64 := 9650029242287828579

def prime5 : UInt64 := 2870177450012600261

/-- Source: `XXH_rotl64` -/
def rotl64 (x r : UInt64) : UInt64 := (x <<< r) ||| (x >>> (64 - r))

/-- The first `n` bytes at `p`, least significant first. Source: `XXH_readLE64`, `XXH_readLE32` -/
def readLE (n : ℕ) (p : List UInt8) : UInt64 := .ofNat (Nat.ofDigits 256 ((p.take n).map UInt8.toNat))

/-! ### One call -/

/-- `v1` to `v4` -/
structure Lanes where
  v1 : UInt64
  v2 : UInt64
  v3 : UInt64
  v4 : UInt64

def start (seed : UInt64) : Lanes := ⟨seed + prime1 + prime2, seed + prime2, seed + 0, seed - prime1⟩

def lane (v word : UInt64) : UInt64 := rotl64 (v + word * prime2) 31 * prime1

/-- One turn of the loop over blocks. -/
def turn (v : Lanes) (p : List UInt8) : Lanes :=
  ⟨lane v.v1 (readLE 8 p), lane v.v2 (readLE 8 (p.drop 8)), lane v.v3 (readLE 8 (p.drop 16)),
    lane v.v4 (readLE 8 (p.drop 24))⟩

def mergeLane (h v : UInt64) : UInt64 := (h ^^^ (rotl64 (v * prime2) 31 * prime1)) * prime1 + prime4

def converge (v : Lanes) : UInt64 :=
  let h := rotl64 v.v1 1 + rotl64 v.v2 7 + rotl64 v.v3 12 + rotl64 v.v4 18
  mergeLane (mergeLane (mergeLane (mergeLane h v.v1) v.v2) v.v3) v.v4

def tailWord (h : UInt64) (p : List UInt8) : UInt64 :=
  rotl64 (h ^^^ (rotl64 (readLE 8 p * prime2) 31 * prime1)) 27 * prime1 + prime4

/-- The bytes behind the last block: words while there are any, half a word, bytes. `XXH64` and `XXH64_digest` end
with it. -/
def finish (h : UInt64) (p : List UInt8) : UInt64 :=
  let (h, p) := absorb 8 tailWord h p
  let (h, p) := if 4 ≤ p.length then
    (rotl64 (h ^^^ (readLE 4 p * prime1)) 23 * prime2 + prime3, p.drop 4) else (h, p)
  let h := p.foldl (fun h b => rotl64 (h ^^^ (b.toUInt64 * prime5)) 11 * prime1) h
  let h := (h ^^^ (h >>> 33)) * prime2
  let h := (h ^^^ (h >>> 29)) * prime3
  h ^^^ (h >>> 32)

/-- Source: `XXH64` -/
def xxh64 (input : List UInt8) (seed : UInt64) : UInt64 :=
  if 32 ≤ input.length then
    let (v, p) := absorb 32 turn (start seed) input
    finish (converge v + .ofNat input.length) p
  else finish (seed + prime5 + .ofNat input.length) input

/-! ### Pieces -/

/-- `mem` are the first `memsize` bytes of the buffer; the others are not read. Source: `XXH_istate64_t` -/
structure State where
  totalLen : UInt64
  seed : UInt64
  v : Lanes
  mem : List UInt8

/-- Source: `XXH64_reset` -/
def State.reset (seed : UInt64) : State := ⟨0, seed, start seed, []⟩

/-- What is left in the buffer is filled up to a block. -/
def State.fill (st : State) (input : List UInt8) : State × List UInt8 :=
  if st.mem.length ≠ 0 then
    let n := 32 - st.mem.length
    ({ st with v := turn st.v (st.mem ++ input.take n), mem := [] }, input.drop n)
  else (st, input)

/-- The loop over blocks runs if there is one, and what remains goes to the buffer. -/
def State.feed (st : State) (p : List UInt8) : State :=
  let (v, p) := absorb 32 turn st.v p
  if 0 < p.length then { st with v := v, mem := p } else { st with v := v }

/-- Source: `XXH64_update_endian` -/
def State.update (st : State) (input : List UInt8) : State :=
  let st := { st with totalLen := st.totalLen + UInt64.ofNat input.length }
  if st.mem.length + input.length < 32 then { st with mem := st.mem ++ input }
  else
    let (st, p) := st.fill input
    st.feed p

/-- Source: `XXH64_digest_endian` -/
def State.digest (st : State) : UInt64 :=
  let h := if 32 ≤ st.totalLen then converge st.v else st.seed + prime5
  finish (h + st.totalLen) st.mem

/-! ### What a state stands for -/

lemma State.feed_eq {st : State} (h : st.mem = []) (p : List UInt8) : st.feed p =
    { st with v := (absorb 32 turn st.v p).1, mem := (absorb 32 turn st.v p).2 } := by
  unfold feed
  dsimp only
  split_ifs with hp
  · rfl
  · rw [h, length_eq_zero_iff.mp (Nat.eq_zero_of_not_pos hp)]

/-- **An update** is the buffered update of the blocks, and counts the bytes. -/
theorem State.update_eq (st : State) (l : List UInt8) :
    let q := Lib.Absorb.update 32 turn (st.v, st.mem) l
    st.update l = { st with totalLen := st.totalLen + UInt64.ofNat l.length, v := q.1, mem := q.2 } := by
  unfold update Lib.Absorb.update fill
  dsimp only
  split_ifs with hshort hmem
  · rfl
  · exact feed_eq rfl _
  · have hnil : st.mem = [] := List.length_eq_zero_iff.mp (not_not.mp hmem)
    have hblock : (l.take 32).length = 32 := by
      rw [hnil, List.length_nil] at hshort
      rw [List.length_take]
      omega
    simp only [hnil, List.nil_append, List.length_nil, Nat.sub_zero]
    rw [← absorb_block (by decide) hblock, List.take_append_drop]
    exact feed_eq rfl _

/-- Pieces after a reset. -/
lemma State.updates_eq (seed : UInt64) (chunks : List (List UInt8)) :
    let q := absorb 32 turn (start seed) chunks.flatten
    chunks.foldl update (reset seed) = ⟨.ofNat chunks.flatten.length, seed, q.1, q.2⟩ := by
  dsimp only
  rw [← foldl_update (by decide)]
  induction chunks using reverseRecOn with
  | nil => rfl
  | append_singleton chunks l ih =>
    rw [foldl_append, ih, foldl_cons, foldl_nil, update_eq]
    simp [← UInt64.ofNat_add]

/-- **The digest of pieces** is the hash of what they make together. -/
theorem State.digest_updates (seed : UInt64) {chunks : List (List UInt8)}
    (h : chunks.flatten.length < 2 ^ 64) :
    (chunks.foldl update (reset seed)).digest = xxh64 chunks.flatten seed := by
  have hle : 32 ≤ UInt64.ofNat chunks.flatten.length ↔ 32 ≤ chunks.flatten.length := by
    rw [UInt64.le_iff_toNat_le, UInt64.toNat_ofNat_of_lt' h]
    rfl
  rw [updates_eq, digest, xxh64]
  simp only [hle]
  split_ifs with hlong
  · rfl
  · rw [absorb_of_lt (by omega)]

/-! ### Checksums -/

/-- Source: `csum_reset`, `csum_update` for each piece, `csum_digest` -/
def csum (pieces : List (List UInt8)) : UInt64 := (pieces.foldl State.update (State.reset 0)).digest

/-- **Pieces do not matter.** The checksum of any pieces is `XXH64` of the bytes. -/
theorem xxh64_pieces (pieces : List (List UInt8)) (h : pieces.flatten.length < 2 ^ 64) :
    csum pieces = xxh64 pieces.flatten 0 :=
  State.digest_updates 0 h

theorem xxh64_pieces_abc : csum [[97], [98, 99]] = 0x44BC2CF5AD770999 := by
  rw [xxh64_pieces _ (by decide)]
  decide

/-- The loop of `nkfs_pages_dsum` from page `i`, with `left` pages left. -/
def dsumLoop (pages : ℕ → Mem) : ℕ → ℕ → ℕ → State → Except Fault State
  | _, _, 0, ctx => .ok ctx
  | 0, _, _ + 1, _ => .error .bug
  | left + 1, i, len + 1, ctx =>
    let ilen := if len + 1 > pageSize then pageSize else len + 1
    dsumLoop pages left (i + 1) (len + 1 - ilen) (ctx.update (slice (pages i) 0 ilen))

/-- On pages for `total` bytes. Source: `core/upages.c` `nkfs_pages_dsum` -/
def pagesDsum (total : ℕ) (pages : ℕ → Mem) (len : ℕ) : Except Fault (Except Errno UInt64) :=
  if total < len then .ok (.error .einval)
  else (dsumLoop pages (pagesFor total) 0 len (State.reset 0)).map fun ctx => .ok ctx.digest

/-- The loop takes the bytes of the pages in turn. -/
lemma dsumLoop_run (data : Mem) {left i len : ℕ} (h : len ≤ left * pageSize) (ctx : State) :
    ∃ pieces : List (List UInt8), pieces.flatten = slice data (i * pageSize) len ∧
      dsumLoop (fun i j => data (i * pageSize + j)) left i len ctx = .ok (pieces.foldl State.update ctx) := by
  induction left generalizing i len ctx with
  | zero =>
    obtain rfl : len = 0 := by omega
    exact ⟨[], rfl, rfl⟩
  | succ left ih =>
    cases len with
    | zero => exact ⟨[], rfl, rfl⟩
    | succ len =>
      obtain ⟨-, hle, -, hlast, hmore⟩ := piece_spec len
      rw [dsumLoop]
      generalize (if len + 1 > pageSize then pageSize else len + 1) = n at hle hlast hmore
      rw [Nat.succ_mul] at h
      obtain ⟨pieces, hflat, hrun⟩ := ih (i := i + 1) (show len + 1 - n ≤ left * pageSize by omega)
        (ctx.update (slice (fun j => data (i * pageSize + j)) 0 n))
      refine ⟨slice (fun j => data (i * pageSize + j)) 0 n :: pieces, ?_, hrun⟩
      have hpage : slice (fun j => data (i * pageSize + j)) 0 n = slice data (i * pageSize) n := by simp [slice]
      rw [flatten_cons, hflat, hpage, Nat.succ_mul]
      rcases Nat.lt_or_ge pageSize (len + 1) with hlt | hge
      · rw [← hmore hlt, ← slice_add, Nat.add_sub_cancel' hle]
      · rw [hlast hge, Nat.sub_self]
        exact append_nil _

/-- **Page by page** the checksum is that of the bytes, and the loop stays within the pages. -/
theorem pagesDsum_flat (total : ℕ) (data : Mem) (len : UInt32) :
    pagesDsum total (fun i j => data (i * pageSize + j)) len.toNat =
      .ok (Nkfs.pagesDsum (xxh64 · 0) total data len.toNat) := by
  unfold pagesDsum Nkfs.pagesDsum
  split_ifs with hlt
  · rfl
  · have hle : len.toNat ≤ pagesFor total * pageSize := (not_lt.mp hlt).trans (le_pagesFor total)
    obtain ⟨pieces, hflat, hrun⟩ := dsumLoop_run data (i := 0) hle (State.reset 0)
    have hsmall : pieces.flatten.length < 2 ^ 64 := by
      rw [hflat, slice_length]
      exact len.toNat_lt.trans (by decide)
    rw [Nat.zero_mul] at hflat
    rw [hrun, Except.map, State.digest_updates 0 hsmall, hflat]

end Nkfs.Xxh
