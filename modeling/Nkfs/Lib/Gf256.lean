import Mathlib

/-!
# The field of 256 elements

Bytes with exclusive or as addition and multiplication modulo `x^8 + x^4 + x^3 + x + 1`. The
product is built from `xtime`, multiplication by `x`: `mul a b` adds `x^i * b` for every bit `i` of
`a`. It is additive in both arguments, so each law is checked on the eight powers of `x` and
carried to all bytes by `xor_induction`. `Gf` is the resulting field.
-/

namespace Lib.Gf256

/-- Multiplication by `x`: shift, and subtract the modulus when `x^8` appears. -/
def xtime (a : BitVec 8) : BitVec 8 := (a <<< 1) ^^^ bif a.getLsbD 7 then 0x1b#8 else 0#8

/-- A bit times a byte. -/
def scale (b : Bool) (a : BitVec 8) : BitVec 8 := bif b then a else 0#8

/-- The product of `b` with the low `n` bits of `a`. -/
def mulBits (a b : BitVec 8) : ℕ → BitVec 8
  | 0 => 0#8
  | n + 1 => mulBits a b n ^^^ scale (a.getLsbD n) (xtime^[n] b)

/-- The product of two bytes. -/
def mul (a b : BitVec 8) : BitVec 8 := mulBits a b 8

/-- The inverses of the bytes 0, 1, .., 255 (0 stands for the missing inverse of 0). -/
def invTable : List (BitVec 8) :=
  [0, 1, 141, 246, 203, 82, 123, 209, 232, 79, 41, 192, 176, 225, 229, 199, 116, 180, 170, 75,
   153, 43, 96, 95, 88, 63, 253, 204, 255, 64, 238, 178, 58, 110, 90, 241, 85, 77, 168, 201,
   193, 10, 152, 21, 48, 68, 162, 194, 44, 69, 146, 108, 243, 57, 102, 66, 242, 53, 32, 111,
   119, 187, 89, 25, 29, 254, 55, 103, 45, 49, 245, 105, 167, 100, 171, 19, 84, 37, 233, 9,
   237, 92, 5, 202, 76, 36, 135, 191, 24, 62, 34, 240, 81, 236, 97, 23, 22, 94, 175, 211,
   73, 166, 54, 67, 244, 71, 145, 223, 51, 147, 33, 59, 121, 183, 151, 133, 16, 181, 186, 60,
   182, 112, 208, 6, 161, 250, 129, 130, 131, 126, 127, 128, 150, 115, 190, 86, 155, 158, 149, 217,
   247, 2, 185, 164, 222, 106, 50, 109, 216, 138, 132, 114, 42, 20, 159, 136, 249, 220, 137, 154,
   251, 124, 46, 195, 143, 184, 101, 72, 38, 200, 18, 74, 206, 231, 210, 98, 12, 224, 31, 239,
   17, 117, 120, 113, 165, 142, 118, 61, 189, 188, 134, 87, 11, 40, 47, 163, 218, 212, 228, 15,
   169, 39, 83, 4, 27, 252, 172, 230, 122, 7, 174, 99, 197, 219, 226, 234, 148, 139, 196, 213,
   157, 248, 144, 107, 177, 13, 214, 235, 198, 14, 207, 173, 8, 78, 215, 227, 93, 80, 30, 179,
   91, 35, 56, 52, 104, 70, 3, 140, 221, 156, 125, 160, 205, 26, 65, 28]

/-- The inverse of a non-zero byte, 0 for 0. -/
def inv (a : BitVec 8) : BitVec 8 := invTable.getD a.toNat 0#8

/-! ### The product is additive in both arguments -/

lemma scale_xor_left (x y : Bool) (a : BitVec 8) : scale (x ^^ y) a = scale x a ^^^ scale y a := by
  cases x <;> cases y <;> simp [scale]

lemma scale_xor_right (x : Bool) (a b : BitVec 8) : scale x (a ^^^ b) = scale x a ^^^ scale x b := by
  cases x <;> simp [scale]

lemma xor_xor_xor_comm (a b c d : BitVec 8) : a ^^^ b ^^^ (c ^^^ d) = a ^^^ c ^^^ (b ^^^ d) := by
  rw [BitVec.xor_assoc, BitVec.xor_assoc, ← BitVec.xor_assoc b c d, BitVec.xor_comm b c,
    BitVec.xor_assoc c b d]

lemma xtime_eq (a : BitVec 8) : xtime a = (a <<< 1) ^^^ scale (a.getLsbD 7) 0x1b#8 := rfl

lemma xtime_xor (a b : BitVec 8) : xtime (a ^^^ b) = xtime a ^^^ xtime b := by
  rw [xtime_eq, xtime_eq, xtime_eq, BitVec.getLsbD_xor, scale_xor_left, BitVec.shiftLeft_xor_distrib,
    xor_xor_xor_comm]

lemma iterate_xtime_xor (a b : BitVec 8) : ∀ n, xtime^[n] (a ^^^ b) = xtime^[n] a ^^^ xtime^[n] b
  | 0 => rfl
  | n + 1 => by
    rw [Function.iterate_succ', Function.comp_apply, iterate_xtime_xor a b n, xtime_xor]
    rfl

lemma mulBits_xor_left (a a' b : BitVec 8) : ∀ n, mulBits (a ^^^ a') b n = mulBits a b n ^^^ mulBits a' b n
  | 0 => by simp [mulBits]
  | n + 1 => by
    rw [mulBits, mulBits, mulBits, mulBits_xor_left a a' b n, BitVec.getLsbD_xor, scale_xor_left,
      xor_xor_xor_comm]

lemma mulBits_xor_right (a b b' : BitVec 8) : ∀ n, mulBits a (b ^^^ b') n = mulBits a b n ^^^ mulBits a b' n
  | 0 => by simp [mulBits]
  | n + 1 => by
    rw [mulBits, mulBits, mulBits, mulBits_xor_right a b b' n, iterate_xtime_xor,
      scale_xor_right, xor_xor_xor_comm]

lemma xor_mul (a a' b : BitVec 8) : mul (a ^^^ a') b = mul a b ^^^ mul a' b :=
  mulBits_xor_left a a' b 8

lemma mul_xor (a b b' : BitVec 8) : mul a (b ^^^ b') = mul a b ^^^ mul a b' :=
  mulBits_xor_right a b b' 8

/-! ### The laws, from the powers of `x` to all bytes -/

lemma mul_one (a : BitVec 8) : mul a 1#8 = a := by
  revert a
  decide

lemma one_mul (a : BitVec 8) : mul 1#8 a = a := by
  revert a
  decide

lemma mul_zero (a : BitVec 8) : mul a 0#8 = 0#8 := by
  revert a
  decide

lemma zero_mul (a : BitVec 8) : mul 0#8 a = 0#8 := by
  revert a
  decide

/-- A property of zero and of the eight powers of `x` that is closed under addition holds of every
byte. -/
lemma xor_induction {P : BitVec 8 → Prop} (zero : P 0#8) (pow : ∀ i < 8, P (xtime^[i] 1#8))
    (xor : ∀ a b, P a → P b → P (a ^^^ b)) (a : BitVec 8) : P a := by
  have hbits : ∀ n ≤ 8, P (mulBits a 1#8 n) := by
    intro n
    induction n with
    | zero => exact fun _ => zero
    | succ n ih =>
      intro hn
      refine xor _ _ (ih (by omega)) ?_
      cases a.getLsbD n with
      | false => exact zero
      | true => exact pow n (by omega)
  have h := hbits 8 le_rfl
  rwa [show mulBits a 1#8 8 = a from mul_one a] at h

lemma mul_comm (a b : BitVec 8) : mul a b = mul b a := by
  revert b
  induction a using xor_induction with
  | zero => exact fun b => by rw [mul_zero, zero_mul]
  | pow i hi =>
    intro b
    induction b using xor_induction with
    | zero => rw [mul_zero, zero_mul]
    | pow j hj => revert i j; decide
    | xor b b' hb hb' => rw [mul_xor, xor_mul, hb, hb']
  | xor a a' ha ha' => exact fun b => by rw [xor_mul, mul_xor, ha b, ha' b]

lemma mul_assoc (a b c : BitVec 8) : mul (mul a b) c = mul a (mul b c) := by
  revert b c
  induction a using xor_induction with
  | zero => exact fun b c => by rw [zero_mul, zero_mul, zero_mul]
  | pow i hi =>
    intro b
    induction b using xor_induction with
    | zero => exact fun c => by rw [mul_zero, zero_mul, mul_zero]
    | pow j hj =>
      intro c
      induction c using xor_induction with
      | zero => rw [mul_zero, mul_zero, mul_zero]
      | pow k hk => revert i j k; decide +kernel
      | xor c c' hc hc' => rw [mul_xor, mul_xor, mul_xor, hc, hc']
    | xor b b' hb hb' => exact fun c => by rw [mul_xor, xor_mul, hb c, hb' c, xor_mul, mul_xor]
  | xor a a' ha ha' => exact fun b c => by rw [xor_mul, xor_mul, ha b c, ha' b c, xor_mul]

lemma mul_inv_cancel {a : BitVec 8} (h : a ≠ 0#8) : mul a (inv a) = 1#8 := by
  revert a
  decide +kernel

/-! ### The field -/

/-- The field of 256 elements. -/
def Gf : Type := BitVec 8

instance : DecidableEq Gf := inferInstanceAs (DecidableEq (BitVec 8))

instance : Zero Gf := ⟨0#8⟩
instance : One Gf := ⟨1#8⟩
instance : Add Gf := ⟨fun a b => BitVec.xor a b⟩
instance : Neg Gf := ⟨fun a => a⟩
instance : Mul Gf := ⟨mul⟩
instance : Inv Gf := ⟨inv⟩

instance : CommRing Gf where
  add_assoc := BitVec.xor_assoc
  zero_add := fun a => BitVec.zero_xor (x := a)
  add_zero := fun a => BitVec.xor_zero (x := a)
  add_comm := BitVec.xor_comm
  neg_add_cancel := fun a => BitVec.xor_self (x := a)
  mul_assoc := mul_assoc
  one_mul := one_mul
  mul_one := mul_one
  left_distrib := mul_xor
  right_distrib := xor_mul
  zero_mul := zero_mul
  mul_zero := mul_zero
  mul_comm := mul_comm
  nsmul := nsmulRec
  zsmul := zsmulRec

instance : Field Gf where
  exists_pair_ne := ⟨0, 1, by decide⟩
  mul_inv_cancel := fun _ h => mul_inv_cancel h
  inv_zero := show inv 0#8 = 0#8 by decide
  nnqsmul := _
  nnqsmul_def := fun _ _ => rfl
  qsmul := _
  qsmul_def := fun _ _ => rfl

/-- Every element is its own negative. -/
lemma neg_eq (a : Gf) : -a = a := rfl

lemma sub_eq_add (a b : Gf) : a - b = a + b := by
  rw [sub_eq_add_neg, neg_eq]

end Lib.Gf256
