import Mathlib
import Nkfs.Errno

/-!
# Hex strings of byte buffers (`crt/char2hex.c`)

`bytes_hex` prints a buffer, two digits a byte, and `hex_bytes` reads such a string back. A `char` is signed, so
a byte above 127 is negative when its nibbles are taken, and lengths are of type `int`.

The two loops undo each other (`hexLoop_encode`, `hexLoop_spec`), and the reader accepts a string exactly when it
has the right length and only digits (`hexBytes_ok_iff`). What does not go through for every buffer is the length of
the string: `2*src_count + 1` is an `int`, so from 2^30 bytes on it is negative and the allocation fails
(`roundTrips_iff`).
-/

namespace Nkfs.Hex

open List

/-! ### The code -/

/-- Source: `crt/char2hex.c` `char_to_hex` -/
def charToHex (c : Int8) : Int8 :=
  if c.toInt < 10 then .ofInt ('0'.toNat + c.toInt) else .ofInt ('a'.toNat + c.toInt - 10)

/-- Source: `crt/char2hex.c` `hex_to_char` -/
def hexToChar (c : Int8) : ℤ :=
  if '0'.toNat ≤ c.toInt ∧ c.toInt ≤ '9'.toNat then c.toInt - '0'.toNat
  else if 'a'.toNat ≤ c.toInt ∧ c.toInt ≤ 'f'.toNat then c.toInt - 'a'.toNat + 10
  else -1

/-- What the loop of `hex_bytes` returns, and the bytes it has written to `dst` by then. -/
def hexLoop : List Int8 → Except Errno Unit × List Int8
  | h :: l :: hex =>
    let high := hexToChar h
    let low := hexToChar l
    if high = -1 ∨ low = -1 then (.error .einval, [])
    else
      let (r, dst) := hexLoop hex
      (r, .ofInt (high * 16 + low) :: dst)
  | _ => (.ok (), [])

/-- What is returned, and the bytes written to `dst`. Source: `crt/char2hex.c` `hex_bytes` -/
def hexBytes (hex : List Int8) (hexLen dstLen : ℤ) : Except Errno Unit × List Int8 :=
  if hexLen ≤ 0 ∨ dstLen ≤ 0 then (.error .einval, [])
  else if hexLen % 2 = 1 then (.error .einval, [])
  else if dstLen ≠ hexLen / 2 then (.error .einval, [])
  else hexLoop (hex.take hexLen.toNat)

/-- An `int` result that is out of range wraps. -/
def wrapInt (x : ℤ) : ℤ := x.bmod (2 ^ 32)

/-- `char_to_hex((*src >> 4) & 0xF)` and `char_to_hex(*src & 0xF)`. -/
def encodeByte (c : Int8) : List Int8 :=
  [charToHex (.ofInt ((c.toInt >>> (4 : ℕ)) % 16)), charToHex (.ofInt (c.toInt % 16))]

/-- The characters written to `hex`, or `none` for `NKFS_E_BUF_SMALL`.
Source: `crt/char2hex.c` `bytes_buf_hex` -/
def bytesBufHex (src : List Int8) (hexCount : ℤ) : Option (List Int8) :=
  if hexCount < wrapInt (2 * src.length) then none else some (src.flatMap encodeByte)

/-- `crt_malloc`: whether there are that many bytes to be had. No allocation is larger than half of the address
space. -/
structure Allocator where
  ok : ℕ → Bool
  refuses : ∀ n, 2 ^ 63 ≤ n → ok n = false

/-- The `size_t` of an `int`. -/
def sizeOfInt (x : ℤ) : ℕ := (x % 2 ^ 64).toNat

/-- The string with its terminating zero. Source: `crt/char2hex.c` `bytes_hex` -/
def bytesHex (a : Allocator) (src : List Int8) : Option (List Int8) :=
  if src.length = 0 then none
  else
    let hexCount := wrapInt (2 * src.length + 1)
    if a.ok (sizeOfInt hexCount) then
      match bytesBufHex src hexCount with
      | none => none
      | some hex => some (hex ++ [0])
    else none

/-- `crt_strlen`. -/
def strlen (s : List Int8) : ℕ := (s.takeWhile (· ≠ 0)).length

/-! ### Digits -/

/-- One of the characters 0-9 and a-f. -/
def IsDigit (c : Int8) : Prop :=
  ('0'.toNat ≤ c.toInt ∧ c.toInt ≤ '9'.toNat) ∨ ('a'.toNat ≤ c.toInt ∧ c.toInt ≤ 'f'.toNat)

lemma hexToChar_charToHex {n : ℤ} (h0 : 0 ≤ n) (h : n < 16) : hexToChar (charToHex (.ofInt n)) = n := by
  have hall : ∀ k : Fin 16, hexToChar (charToHex (.ofInt k)) = k := by decide
  lift n to ℕ using h0
  exact hall ⟨n, by omega⟩

lemma isDigit_charToHex {n : ℤ} (h0 : 0 ≤ n) (h : n < 16) : IsDigit (charToHex (.ofInt n)) := by
  have hall : ∀ k : Fin 16, IsDigit (charToHex (.ofInt k)) := by
    unfold IsDigit
    decide
  lift n to ℕ using h0
  exact hall ⟨n, by omega⟩

lemma IsDigit.ne_zero {c : Int8} (h : IsDigit c) : c ≠ 0 := by
  rintro rfl
  revert h
  unfold IsDigit
  decide

lemma code_zero : (('0'.toNat : ℕ) : ℤ) = 48 := rfl

lemma code_nine : (('9'.toNat : ℕ) : ℤ) = 57 := rfl

lemma code_a : (('a'.toNat : ℕ) : ℤ) = 97 := rfl

lemma code_f : (('f'.toNat : ℕ) : ℤ) = 102 := rfl

/-- The value of a digit is in range and is printed as the digit, and any other character gives -1. -/
lemma hexToChar_cases (c : Int8) :
    (IsDigit c ∧ 0 ≤ hexToChar c ∧ hexToChar c < 16 ∧ charToHex (.ofInt (hexToChar c)) = c) ∨
      (¬ IsDigit c ∧ hexToChar c = -1) := by
  have hval : ∀ {n : ℤ}, 0 ≤ n → n < 16 → (Int8.ofInt n).toInt = n := fun h0 h =>
    Int8.toInt_ofInt_of_le (by omega) (by omega)
  unfold hexToChar IsDigit charToHex
  simp only [code_zero, code_nine, code_a, code_f]
  split
  · left
    refine ⟨by omega, by omega, by omega, ?_⟩
    rw [hval (by omega) (by omega), if_pos (by omega), add_sub_cancel, Int8.ofInt_toInt]
  · split
    · left
      refine ⟨by omega, by omega, by omega, ?_⟩
      rw [hval (by omega) (by omega), if_neg (by omega)]
      rw [show (97 : ℤ) + (c.toInt - 97 + 10) - 10 = c.toInt by ring, Int8.ofInt_toInt]
    · right
      omega

lemma hexToChar_eq_neg_one_iff {c : Int8} : hexToChar c = -1 ↔ ¬ IsDigit c := by
  rcases hexToChar_cases c with ⟨hd, h0, -, -⟩ | ⟨hd, h⟩
  · exact ⟨fun h => absurd h (by omega), fun h => absurd hd h⟩
  · exact ⟨fun _ => hd, fun _ => h⟩

/-! ### Bytes -/

lemma nibbles (c : Int8) : 0 ≤ (c.toInt >>> (4 : ℕ)) % 16 ∧ (c.toInt >>> (4 : ℕ)) % 16 < 16 ∧ 0 ≤ c.toInt % 16 ∧
    c.toInt % 16 < 16 := by
  omega

/-- A byte is put together from its nibbles, also a negative one. -/
lemma ofInt_nibbles (c : Int8) : Int8.ofInt ((c.toInt >>> (4 : ℕ)) % 16 * 16 + c.toInt % 16) = c := by
  have hdiv : c.toInt >>> (4 : ℕ) = c.toInt / 16 := Int.shiftRight_eq_div_pow _ 4
  have hmod : (c.toInt >>> (4 : ℕ)) % 16 * 16 + c.toInt % 16 = c.toInt % (256 : ℕ) := by
    rw [hdiv]
    omega
  have hlo := Int8.le_toInt c
  have hhi := Int8.toInt_lt c
  apply Int8.toInt_inj.mp
  rw [hmod, Int8.toInt_ofInt, show Int8.size = 256 from rfl, Int.emod_bmod]
  exact Int.bmod_eq_of_le (by omega) (by omega)

/-- The nibbles of a byte put together. -/
lemma encodeByte_ofInt {high low : ℤ} (h0 : 0 ≤ high) (hh : high < 16) (l0 : 0 ≤ low) (hl : low < 16) :
    encodeByte (.ofInt (high * 16 + low)) = [charToHex (.ofInt high), charToHex (.ofInt low)] := by
  have hval : (Int8.ofInt (high * 16 + low)).toInt = (high * 16 + low).bmod 256 := Int8.toInt_ofInt
  have hmod : (Int8.ofInt (high * 16 + low)).toInt % 256 = high * 16 + low := by
    rw [hval, Int.bmod_def]
    split <;> omega
  have hdiv : (Int8.ofInt (high * 16 + low)).toInt >>> (4 : ℕ) = (Int8.ofInt (high * 16 + low)).toInt / 16 :=
    Int.shiftRight_eq_div_pow _ 4
  have hhigh : (Int8.ofInt (high * 16 + low)).toInt / 16 % 16 = high := by
    omega
  have hlow : (Int8.ofInt (high * 16 + low)).toInt % 16 = low := by
    omega
  rw [encodeByte, hdiv, hhigh, hlow]

lemma encodeByte_digits {b c : Int8} (h : c ∈ encodeByte b) : IsDigit c := by
  obtain ⟨h0, h1, h2, h3⟩ := nibbles b
  simp only [encodeByte, mem_cons, not_mem_nil, or_false] at h
  rcases h with rfl | rfl
  · exact isDigit_charToHex h0 h1
  · exact isDigit_charToHex h2 h3

/-! ### The loops -/

/-- Reading undoes printing. -/
lemma hexLoop_encode (src : List Int8) : hexLoop (src.flatMap encodeByte) = (.ok (), src) := by
  induction src with
  | nil => rfl
  | cons c src ih =>
    obtain ⟨h0, h1, h2, h3⟩ := nibbles c
    rw [flatMap_cons]
    show hexLoop (charToHex _ :: charToHex _ :: src.flatMap encodeByte) = _
    rw [hexLoop, hexToChar_charToHex h0 h1, hexToChar_charToHex h2 h3, if_neg (by omega), ih, ofInt_nibbles]

/-- The loop goes through exactly on digits, and printing then undoes reading. -/
lemma hexLoop_spec : ∀ hex : List Int8, hex.length % 2 = 0 →
    ((hexLoop hex).1 = .ok () ↔ ∀ c ∈ hex, IsDigit c) ∧
      ((hexLoop hex).1 = .ok () → (hexLoop hex).2.flatMap encodeByte = hex ∧ 2 * (hexLoop hex).2.length = hex.length)
  | [], _ => by simp [hexLoop]
  | [_], h => by simp at h
  | h :: l :: hex, heven => by
    obtain ⟨ihok, ihback⟩ := hexLoop_spec hex (by simpa [add_assoc] using heven)
    by_cases hbad : hexToChar h = -1 ∨ hexToChar l = -1
    · have hno : ¬ ∀ c ∈ h :: l :: hex, IsDigit c := by
        intro hall
        rcases hbad with hbad | hbad
        · exact hexToChar_eq_neg_one_iff.mp hbad (hall h (by simp))
        · exact hexToChar_eq_neg_one_iff.mp hbad (hall l (by simp))
      rw [hexLoop, if_pos hbad]
      exact ⟨⟨nofun, fun hall => absurd hall hno⟩, nofun⟩
    · rw [hexLoop, if_neg hbad]
      rw [not_or] at hbad
      obtain ⟨hh, hh0, hh1, hhc⟩ := (hexToChar_cases h).resolve_right fun hc => hbad.1 hc.2
      obtain ⟨hl, hl0, hl1, hlc⟩ := (hexToChar_cases l).resolve_right fun hc => hbad.2 hc.2
      constructor
      · simp only [forall_mem_cons, hh, hl, true_and]
        exact ihok
      · intro hok
        obtain ⟨hback, hlen⟩ := ihback hok
        rw [flatMap_cons, encodeByte_ofInt hh0 hh1 hl0 hl1, hhc, hlc, hback]
        refine ⟨rfl, ?_⟩
        simp only [length_cons]
        omega

/-! ### Whole calls -/

/-- Strings are accepted by their length and digits. -/
lemma hexBytes_ok_iff (s : List Int8) (dstLen : ℤ) : (hexBytes s s.length dstLen).1 = .ok () ↔
    s ≠ [] ∧ (s.length : ℤ) = 2 * dstLen ∧ ∀ c ∈ s, IsDigit c := by
  unfold hexBytes
  by_cases hs : (s.length : ℤ) ≤ 0 ∨ dstLen ≤ 0
  · rw [if_pos hs]
    refine ⟨nofun, fun ⟨hne, hlen, _⟩ => ?_⟩
    have hpos : 0 < s.length := length_pos_iff.mpr hne
    omega
  rw [if_neg hs]
  by_cases hodd : (s.length : ℤ) % 2 = 1
  · rw [if_pos hodd]
    exact ⟨nofun, fun ⟨_, hlen, _⟩ => by omega⟩
  rw [if_neg hodd]
  by_cases hdst : dstLen ≠ (s.length : ℤ) / 2
  · rw [if_pos hdst]
    exact ⟨nofun, fun ⟨_, hlen, _⟩ => by omega⟩
  rw [if_neg hdst, Int.toNat_natCast, take_length, (hexLoop_spec s (by omega)).1]
  have hne : s ≠ [] := by
    rintro rfl
    exact hs (.inl (le_refl 0))
  exact ⟨fun hall => ⟨hne, by omega, hall⟩, fun h => h.2.2⟩

/-- What an accepted string was read to is printed as that string. -/
lemma hexBytes_back {s : List Int8} {dstLen : ℤ} (hok : (hexBytes s s.length dstLen).1 = .ok ()) :
    (hexBytes s s.length dstLen).2.flatMap encodeByte = s ∧
      ((hexBytes s s.length dstLen).2.length : ℤ) = dstLen := by
  obtain ⟨hne, hlen, hdigits⟩ := (hexBytes_ok_iff s dstLen).mp hok
  have hpos : 0 < s.length := length_pos_iff.mpr hne
  have heq : hexBytes s s.length dstLen = hexLoop s := by
    rw [hexBytes, if_neg (by omega), if_neg (by omega), if_neg (by omega), Int.toNat_natCast, take_length]
  rw [heq] at hok ⊢
  obtain ⟨hback, hlen'⟩ := (hexLoop_spec s (by omega)).2 hok
  exact ⟨hback, by omega⟩

lemma length_encode (src : List Int8) : (src.flatMap encodeByte).length = 2 * src.length := by
  induction src with
  | nil => rfl
  | cons c src ih =>
    rw [flatMap_cons, length_append, ih, length_cons]
    show 2 + 2 * src.length = _
    omega

lemma encode_digits {src : List Int8} {c : Int8} (h : c ∈ src.flatMap encodeByte) : IsDigit c := by
  obtain ⟨b, -, hc⟩ := mem_flatMap.mp h
  exact encodeByte_digits hc

lemma strlen_encode (src : List Int8) : strlen (src.flatMap encodeByte ++ [0]) = 2 * src.length := by
  have hall : ∀ c ∈ src.flatMap encodeByte, (decide (c ≠ 0)) = true := fun c hc =>
    decide_eq_true (encode_digits hc).ne_zero
  rw [strlen, takeWhile_append_of_pos hall, ← length_encode]
  simp

/-- Every string that an `int` can count can be allocated. -/
def Allocator.Roomy (a : Allocator) : Prop := ∀ n ≤ 2 ^ 31, a.ok n = true

section calls

variable {a : Allocator} {src : List Int8}

lemma wrapInt_eq {x : ℤ} (h0 : 0 ≤ x) (h : x < 2 ^ 31) : wrapInt x = x := by
  rw [wrapInt, Int.bmod_def, if_pos (by omega)]
  omega

/-- A buffer of less than 2^30 bytes is printed. -/
lemma bytesHex_eq (ha : a.Roomy) (hpos : 0 < src.length) (hlt : src.length < 2 ^ 30) :
    bytesHex a src = some (src.flatMap encodeByte ++ [0]) := by
  have hcount : wrapInt (2 * src.length + 1) = 2 * src.length + 1 := wrapInt_eq (by omega) (by omega)
  have hlen : wrapInt (2 * src.length) = 2 * src.length := wrapInt_eq (by omega) (by omega)
  have hsize : sizeOfInt (2 * src.length + 1) = 2 * src.length + 1 := by
    unfold sizeOfInt
    omega
  have hle : 2 * src.length + 1 ≤ 2 ^ 31 := by omega
  have hfit : ¬ 2 * (src.length : ℤ) + 1 < 2 * src.length := by omega
  have hbuf : bytesBufHex src (2 * src.length + 1) = some (src.flatMap encodeByte) := by
    rw [bytesBufHex, hlen, if_neg hfit]
  rw [bytesHex, if_neg hpos.ne']
  simp only [hcount, hsize, ha _ hle, if_true, hbuf]

/-- For a larger one the length of the string is negative as an `int`. -/
lemma bytesHex_large (hge : 2 ^ 30 ≤ src.length) (hlt : src.length < 2 ^ 31) : bytesHex a src = none := by
  have hcount : wrapInt (2 * src.length + 1) = 2 * src.length + 1 - 2 ^ 32 := by
    rw [wrapInt, Int.bmod_def, if_neg (by omega)]
    omega
  have hno : a.ok (sizeOfInt (2 * src.length + 1 - 2 ^ 32)) = false := by
    apply a.refuses
    unfold sizeOfInt
    omega
  simp only [bytesHex]
  rw [if_neg (by omega), hcount, hno]
  rfl

end calls

/-- A buffer whose length is an `int`. -/
def CBuf : Type := {l : List Int8 // l.length < 2 ^ 31}

/-- The buffer is printed and read back. -/
def RoundTrips (a : Allocator) (buf : CBuf) : Prop :=
  ∃ s, bytesHex a buf.1 = some s ∧ hexBytes s (wrapInt (strlen s)) buf.1.length = (.ok (), buf.1)

/-- Reading what was printed. -/
lemma hexBytes_encode {src : List Int8} (hpos : 0 < src.length) (hlt : src.length < 2 ^ 30) :
    hexBytes (src.flatMap encodeByte ++ [0]) (wrapInt (strlen (src.flatMap encodeByte ++ [0]))) src.length =
      (.ok (), src) := by
  have htake : (src.flatMap encodeByte ++ [0]).take (2 * (src.length : ℤ)).toNat = src.flatMap encodeByte := by
    rw [show (2 * (src.length : ℤ)).toNat = (src.flatMap encodeByte).length by rw [length_encode]; omega]
    simp
  rw [strlen_encode, wrapInt_eq (by omega) (by omega), Nat.cast_mul, Nat.cast_ofNat, hexBytes, if_neg (by omega),
    if_neg (by omega), if_neg (by omega), htake, hexLoop_encode]

lemma roundTrips_iff {a : Allocator} (ha : a.Roomy) {buf : CBuf} (hne : buf.1 ≠ []) :
    RoundTrips a buf ↔ buf.1.length < 2 ^ 30 := by
  have hpos : 0 < buf.1.length := length_pos_iff.mpr hne
  constructor
  · rintro ⟨s, hs, -⟩
    by_contra hge
    rw [bytesHex_large (not_lt.mp hge) buf.2] at hs
    cases hs
  · intro hlt
    exact ⟨_, bytesHex_eq ha hpos hlt, hexBytes_encode hpos hlt⟩

/-- Everything up to half of the address space is there. -/
def Allocator.half : Allocator where
  ok n := decide (n < 2 ^ 63)
  refuses _ h := decide_eq_false (not_lt.mpr h)

lemma Allocator.roomy_half : Allocator.half.Roomy := fun n h => decide_eq_true (lt_of_le_of_lt h (by decide))

lemma exists_large : ∃ buf : CBuf, buf.1.length = 2 ^ 30 :=
  ⟨⟨replicate (2 ^ 30) 0, by rw [length_replicate]; norm_num⟩, length_replicate⟩

end Nkfs.Hex
