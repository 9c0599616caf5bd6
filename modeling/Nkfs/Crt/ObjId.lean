import Nkfs.Crt.Hex
import Nkfs.Route.Invariant

/-!
# Object ids: distance and strings (`crt/obj_id.c`)

An id is two words, and its value is the 128-bit number they spell. `nkfs_obj_id_dist` subtracts word by word, with
a borrow written out. Its result is the difference of the values, for all ids (`objIdDist_spec`), so the distance
has what a distance should have (`objIdDist_metric`).

Ids are printed and read as the 16 bytes they are in memory.
-/

namespace Nkfs

/-! ### The distance -/

/-- `U64_MAX` -/
def u64Max : UInt64 := 0xFFFFFFFFFFFFFFFF

/-- `none` where a `CRT_BUG` fires. Source: `crt/obj_id.c` `nkfs_obj_id_minus` -/
def objIdMinus (id1 id2 : ObjId) : Option ObjId :=
  if id1.high > id2.high then
    if id1.low ≥ id2.low then some ⟨id1.high - id2.high, id1.low - id2.low⟩
    else some ⟨id1.high - id2.high - 1, u64Max - id2.low + id1.low + 1⟩
  else if id1.high = id2.high then
    if id1.low < id2.low then none else some ⟨0, id1.low - id2.low⟩
  else none

/-- Source: `crt/obj_id.c` `nkfs_obj_id_dist` -/
def objIdDist (id1 id2 : ObjId) : Option ObjId :=
  if objIdCmp id1 id2 ≠ .lt then objIdMinus id1 id2 else objIdMinus id2 id1

/-- The number that an id spells. -/
def ObjId.val (id : ObjId) : ℕ := id.high.toNat * 2 ^ 64 + id.low.toNat

section distance

variable {a b c : ObjId}

lemma ObjId.val_inj : a.val = b.val ↔ a = b := by
  constructor
  · intro h
    have ha := a.low.toNat_lt
    have hb := b.low.toNat_lt
    apply idKey_inj.mp
    rw [idKey, idKey, toLex_inj, Prod.mk.injEq]
    unfold ObjId.val at h
    omega
  · rintro rfl
    rfl

/-- Ids are compared by their values. -/
lemma objIdCmp_eq_compare_val (a b : ObjId) : objIdCmp a b = compare a.val b.val := by
  have ha := a.low.toNat_lt
  have hb := b.low.toNat_lt
  rw [objIdCmp_eq]
  rcases lt_trichotomy a.val b.val with h | h | h
  · rw [compare_lt_iff_lt.mpr h, compare_lt_iff_lt, idKey, idKey, Prod.Lex.toLex_lt_toLex]
    unfold ObjId.val at h
    show a.high.toNat < b.high.toNat ∨ a.high.toNat = b.high.toNat ∧ a.low.toNat < b.low.toNat
    omega
  · rw [compare_eq_iff_eq.mpr h, ObjId.val_inj.mp h]
    exact compare_eq_iff_eq.mpr rfl
  · rw [compare_gt_iff_gt.mpr h, compare_gt_iff_gt, idKey, idKey, Prod.Lex.toLex_lt_toLex]
    unfold ObjId.val at h
    show b.high.toNat < a.high.toNat ∨ b.high.toNat = a.high.toNat ∧ b.low.toNat < a.low.toNat
    omega

/-- The larger id minus the smaller, by values. No branch that fires `CRT_BUG` is reached, and no word wraps. -/
lemma objIdMinus_spec (h : b.val ≤ a.val) : ∃ d, objIdMinus a b = some d ∧ d.val = a.val - b.val := by
  have ha := a.low.toNat_lt
  have hb := b.low.toNat_lt
  have hah := a.high.toNat_lt
  unfold ObjId.val at h
  unfold objIdMinus
  by_cases hhigh : a.high > b.high
  · have hlt : b.high.toNat < a.high.toNat := UInt64.lt_iff_toNat_lt.mp hhigh
    have hsub : (a.high - b.high).toNat = a.high.toNat - b.high.toNat :=
      UInt64.toNat_sub_of_le _ _ (UInt64.le_iff_toNat_le.mpr hlt.le)
    rw [if_pos hhigh]
    by_cases hlow : a.low ≥ b.low
    · have hle : b.low.toNat ≤ a.low.toNat := UInt64.le_iff_toNat_le.mp hlow
      refine ⟨_, if_pos hlow, ?_⟩
      simp only [ObjId.val, hsub, UInt64.toNat_sub_of_le _ _ hlow]
      omega
    · -- the borrow
      have hgt : a.low.toNat < b.low.toNat := by
        rw [ge_iff_le, UInt64.le_iff_toNat_le] at hlow
        omega
      have hone : (a.high - b.high - 1).toNat = a.high.toNat - b.high.toNat - 1 := by
        have hle : (1 : UInt64) ≤ a.high - b.high := by
          rw [UInt64.le_iff_toNat_le, hsub]
          show 1 ≤ _
          omega
        rw [UInt64.toNat_sub_of_le _ _ hle, hsub]
        rfl
      have hmax : (u64Max - b.low).toNat = 2 ^ 64 - 1 - b.low.toNat := by
        have hle : b.low ≤ u64Max := by
          rw [UInt64.le_iff_toNat_le]
          show _ ≤ 2 ^ 64 - 1
          omega
        exact UInt64.toNat_sub_of_le _ _ hle
      have hsum : (u64Max - b.low + a.low + 1).toNat = 2 ^ 64 - b.low.toNat + a.low.toNat := by
        rw [UInt64.toNat_add, UInt64.toNat_add, hmax, show (1 : UInt64).toNat = 1 from rfl]
        omega
      refine ⟨_, if_neg hlow, ?_⟩
      simp only [ObjId.val, hone, hsum]
      omega
  · have hle : a.high.toNat ≤ b.high.toNat := by
      rw [gt_iff_lt, UInt64.lt_iff_toNat_lt] at hhigh
      omega
    have heq : a.high = b.high := UInt64.toNat_inj.mp (by omega)
    have hlow : b.low ≤ a.low := by
      rw [UInt64.le_iff_toNat_le]
      omega
    rw [if_neg hhigh, if_pos heq, if_neg (UInt64.not_lt.mpr hlow)]
    refine ⟨_, rfl, ?_⟩
    simp only [ObjId.val, heq, UInt64.toNat_sub_of_le _ _ hlow]
    show 0 * 2 ^ 64 + _ = _
    omega

/-- **The distance is the difference of the values.** -/
theorem objIdDist_spec (a b : ObjId) : ∃ d, objIdDist a b = some d ∧ (d.val : ℤ) = |(a.val : ℤ) - b.val| := by
  unfold objIdDist
  by_cases hcmp : objIdCmp a b ≠ .lt
  · have hle : b.val ≤ a.val := by
      rw [objIdCmp_eq_compare_val, ne_eq, compare_lt_iff_lt] at hcmp
      omega
    obtain ⟨d, hd, hval⟩ := objIdMinus_spec hle
    rw [if_pos hcmp]
    refine ⟨d, hd, ?_⟩
    rw [hval, abs_of_nonneg (by omega)]
    omega
  · have hle : a.val ≤ b.val := by
      rw [objIdCmp_eq_compare_val, not_not, compare_lt_iff_lt] at hcmp
      omega
    obtain ⟨d, hd, hval⟩ := objIdMinus_spec hle
    rw [if_neg hcmp]
    refine ⟨d, hd, ?_⟩
    rw [hval, abs_of_nonpos (by omega)]
    omega

/-- **Distances of ids.** The distance is always there and is the absolute difference of the values; it is
symmetric, zero for equal ids only, and keeps the triangle inequality; and ids are ordered as their values are. -/
theorem objIdDist_metric : ∃ dist : ObjId → ObjId → ObjId,
    (∀ a b, objIdDist a b = some (dist a b)) ∧
    (∀ a b, ((dist a b).val : ℤ) = |(a.val : ℤ) - b.val|) ∧
    (∀ a b, dist a b = dist b a) ∧
    (∀ a b, dist a b = .zero ↔ a = b) ∧
    (∀ a b c, (dist a c).val ≤ (dist a b).val + (dist b c).val) ∧
    ∀ a b, objIdCmp a b = compare a.val b.val := by
  choose dist hdist hval using objIdDist_spec
  refine ⟨dist, hdist, hval, fun a b => ?_, fun a b => ?_, fun a b c => ?_, objIdCmp_eq_compare_val⟩
  · apply ObjId.val_inj.mp
    have habs := abs_sub_comm (a.val : ℤ) b.val
    rw [← hval, ← hval] at habs
    exact_mod_cast habs
  · rw [← ObjId.val_inj, ← ObjId.val_inj, show ObjId.zero.val = 0 from rfl]
    have hab := hval a b
    constructor
    · intro h
      rw [h, Nat.cast_zero, eq_comm, abs_eq_zero] at hab
      omega
    · intro h
      rw [h, sub_self, abs_zero] at hab
      exact_mod_cast hab
  · have habs := abs_sub_le (a.val : ℤ) b.val c.val
    rw [← hval, ← hval, ← hval] at habs
    exact_mod_cast habs

end distance

/-! ### Strings -/

open Hex

/-- The low `n` bytes of a number, the lowest first. -/
def wordChars : ℕ → ℕ → List Int8
  | 0, _ => []
  | n + 1, v => .ofInt (v % 256 : ℕ) :: wordChars n (v / 256)

/-- The number that bytes are, the lowest first. -/
def charsWord : List Int8 → ℕ
  | [] => 0
  | c :: l => (c.toInt % 256).toNat + 256 * charsWord l

/-- An id in memory. -/
def ObjId.bytes (id : ObjId) : List Int8 := wordChars 8 id.high.toNat ++ wordChars 8 id.low.toNat

def ObjId.ofBytes (l : List Int8) : ObjId := ⟨.ofNat (charsWord (l.take 8)), .ofNat (charsWord (l.drop 8))⟩

/-- Source: `crt/obj_id.c` `nkfs_obj_id_str` -/
def objIdStr (a : Allocator) (id : ObjId) : Option (List Int8) := bytesHex a id.bytes

/-- Source: `crt/obj_id.c` `nkfs_obj_id_by_str` -/
def objIdByStr (a : Allocator) (s : List Int8) : Option ObjId :=
  if a.ok 16 then
    match hexBytes s (wrapInt (strlen s)) 16 with
    | (.ok (), id) => some (.ofBytes id)
    | (.error _, _) => none
  else none

section strings

variable {a : Allocator} {id : ObjId}

lemma length_wordChars : ∀ n v, (wordChars n v).length = n
  | 0, _ => rfl
  | n + 1, v => by rw [wordChars, List.length_cons, length_wordChars n]

lemma charsWord_wordChars : ∀ n v, charsWord (wordChars n v) = v % 256 ^ n
  | 0, v => by rw [wordChars, charsWord, pow_zero, Nat.mod_one]
  | n + 1, v => by
    have hbyte : ((Int8.ofInt (v % 256 : ℕ)).toInt % 256).toNat = v % 256 := by
      rw [Int8.toInt_ofInt, show Int8.size = 256 from rfl, Int.bmod_def]
      split <;> omega
    rw [wordChars, charsWord, hbyte, charsWord_wordChars n, pow_succ', Nat.mod_mul]

lemma ObjId.length_bytes (id : ObjId) : id.bytes.length = 16 := by
  rw [ObjId.bytes, List.length_append, length_wordChars, length_wordChars]

lemma ObjId.ofBytes_bytes (id : ObjId) : ObjId.ofBytes id.bytes = id := by
  have htake : id.bytes.take 8 = wordChars 8 id.high.toNat := List.take_left' (length_wordChars ..)
  have hdrop : id.bytes.drop 8 = wordChars 8 id.low.toNat := List.drop_left' (length_wordChars ..)
  have hword : ∀ x : UInt64, UInt64.ofNat (x.toNat % 256 ^ 8) = x := by
    intro x
    rw [show 256 ^ 8 = 2 ^ 64 by norm_num, Nat.mod_eq_of_lt x.toNat_lt, UInt64.ofNat_toNat]
  rw [ObjId.ofBytes, htake, hdrop, charsWord_wordChars, charsWord_wordChars, hword, hword]

lemma objIdByStr_eq {s l : List Int8} (hmem : a.ok 16 = true) (h : hexBytes s (wrapInt (strlen s)) 16 = (.ok (), l)) :
    objIdByStr a s = some (.ofBytes l) := by
  rw [objIdByStr, if_pos hmem, h]

/-- An id that was printed is read back. -/
lemma objIdByStr_str (ha : a.Roomy) (id : ObjId) : ∃ s, objIdStr a id = some s ∧ objIdByStr a s = some id := by
  have hlen := id.length_bytes
  have hpos : 0 < id.bytes.length := by omega
  have hlt : id.bytes.length < 2 ^ 30 := by omega
  refine ⟨_, bytesHex_eq ha hpos hlt, ?_⟩
  have hread := hexBytes_encode hpos hlt
  rw [hlen, Nat.cast_ofNat] at hread
  rw [objIdByStr_eq (ha 16 (by norm_num)) hread, id.ofBytes_bytes]

/-- **Printing and reading.** With memory to be had, a buffer is printed and read back exactly when it has less than
2^30 bytes; an id always is. A string is accepted exactly when it is not empty, has two characters for each byte and
only digits, and what was read is then printed as that string. -/
theorem hex_inverse_iff (ha : a.Roomy) :
    (∀ buf : CBuf, buf.1 ≠ [] → (RoundTrips a buf ↔ buf.1.length < 2 ^ 30)) ∧
    (∀ id, ∃ s, objIdStr a id = some s ∧ objIdByStr a s = some id) ∧
    ∀ (s : CBuf) (dstLen : ℤ),
      ((hexBytes s.1 s.1.length dstLen).1 = .ok () ↔
        s.1 ≠ [] ∧ (s.1.length : ℤ) = 2 * dstLen ∧ ∀ c ∈ s.1, IsDigit c) ∧
      ((hexBytes s.1 s.1.length dstLen).1 = .ok () →
        bytesHex a (hexBytes s.1 s.1.length dstLen).2 = some (s.1 ++ [0])) := by
  refine ⟨fun buf hne => roundTrips_iff ha hne, objIdByStr_str ha, fun s dstLen => ⟨hexBytes_ok_iff s.1 dstLen, ?_⟩⟩
  intro hok
  obtain ⟨hback, hlen⟩ := hexBytes_back hok
  obtain ⟨hne, hlen', -⟩ := (hexBytes_ok_iff s.1 dstLen).mp hok
  have hpos : 0 < s.1.length := List.length_pos_iff.mpr hne
  have hlt := s.2
  rw [bytesHex_eq ha (by omega) (by omega), hback]

end strings

theorem hex_inverse_half : ∃ s, objIdStr .half .zero = some s ∧ objIdByStr .half s = some .zero :=
  (hex_inverse_iff Allocator.roomy_half).2.1 .zero

/-- A buffer of 2^30 zeros is not printed. -/
theorem not_hex_inverse : ¬ ∀ (a : Allocator) (buf : CBuf), a.Roomy → buf.1 ≠ [] → RoundTrips a buf := by
  intro hall
  obtain ⟨buf, hlen⟩ := exists_large
  have hne : buf.1 ≠ [] := by
    apply List.ne_nil_of_length_pos
    omega
  have hlt := (roundTrips_iff Allocator.roomy_half hne).mp (hall .half buf Allocator.roomy_half hne)
  omega

end Nkfs
