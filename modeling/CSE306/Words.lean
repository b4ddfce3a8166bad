import Mathlib.Algebra.Group.Int.Defs
import Mathlib.Algebra.GroupWithZero.Nat

/-! What is left of a number when it is stored in a narrower type, or in a wider one, and
what a mask that was made in the narrower one leaves of the wider. -/
namespace CSE306

/-- A `long` that is stored in an `int`. -/
theorem toInt_narrow (x : BitVec 64) : (x.setWidth 32).toInt = x.toInt.bmod (2 ^ 32) := by
  rw [BitVec.toInt_setWidth, BitVec.toInt_eq_toNat_bmod, Int.bmod_def, Int.bmod_def, Int.bmod_def]
  omega

theorem bmod_of_fits {x : Int} (least : -2147483648 ≤ x) (most : x ≤ 2147483647) :
    x.bmod (2 ^ 32) = x := by
  apply Int.bmod_eq_of_le_mul_two <;> omega

theorem toInt_narrow_of_fits {x : BitVec 64} (least : -2147483648 ≤ x.toInt)
    (most : x.toInt ≤ 2147483647) : (x.setWidth 32).toInt = x.toInt := by
  rw [toInt_narrow, bmod_of_fits least most]

theorem toInt_narrow_iff (x : BitVec 64) : (x.setWidth 32).toInt = x.toInt ↔
    -2147483648 ≤ x.toInt ∧ x.toInt ≤ 2147483647 := by
  constructor
  · intro same
    have least := BitVec.le_two_mul_toInt (x := x.setWidth 32)
    have most := BitVec.two_mul_toInt_lt (x := x.setWidth 32)
    rw [same] at least most
    omega
  · rintro ⟨least, most⟩
    exact toInt_narrow_of_fits least most

/-- An `int` that is stored in an `unsigned long`. -/
theorem toNat_widen (x : BitVec 32) :
    ((x.signExtend 64).toNat : Int) = if x.toInt < 0 then x.toInt + 2 ^ 64 else x.toInt := by
  have same : (x.signExtend 64).toInt = x.toInt := BitVec.toInt_signExtend_of_le (by decide)
  rw [← same, BitVec.toInt_eq_toNat_cond]
  have := (x.signExtend 64).isLt
  split <;> split <;> omega

theorem toNat_signExtend {x : BitVec 32} (h : 0 ≤ x.toInt) :
    (x.signExtend 64).toNat = x.toNat ∧ x.toNat < 2 ^ 31 := by
  have small : x.toNat < 2 ^ 31 := by
    rw [BitVec.toInt_eq_toNat_cond] at h
    have := x.isLt
    split at h <;> omega
  refine ⟨?_, small⟩
  have unsigned : x.msb = false := by
    rw [BitVec.msb_eq_false_iff_two_mul_lt]
    omega
  rw [BitVec.signExtend_eq_setWidth_of_msb_false unsigned, BitVec.toNat_setWidth]
  omega

theorem toNat_widen_of_eq {x : BitVec 32} {k : Nat} (value : x.toInt = k) :
    (x.signExtend 64).toNat = k := by
  have wide := toNat_widen x
  rw [value, if_neg (by omega)] at wide
  omega

theorem toInt_quotient {a b : BitVec 64} (bound : a.toNat / b.toNat < 2 ^ 31) :
    ((a / b).setWidth 32).toInt = (a.toNat / b.toNat : Nat) := by
  have value : ((a / b).setWidth 32).toNat = a.toNat / b.toNat := by
    rw [BitVec.toNat_setWidth, BitVec.toNat_udiv,
      Nat.mod_eq_of_lt (Nat.lt_trans bound (by decide))]
  rw [BitVec.toInt_eq_toNat_of_lt (by rw [value]; omega), value]

theorem sdiv_eq_udiv {a b : BitVec 64} (dividend : a.toNat < 2 ^ 63) (divisor : b.toNat < 2 ^ 63) :
    a.sdiv b = a / b := by
  rw [BitVec.sdiv_eq, BitVec.msb_eq_false_iff_two_mul_lt.mpr (by omega),
    BitVec.msb_eq_false_iff_two_mul_lt.mpr (by omega)]
  rfl

/-- The complement of a mask of low bits, made in an `int`, clears these bits of an
`unsigned long`. -/
theorem toNat_and_mask (x : BitVec 64) {p : BitVec 32} (power : p.toNat = 2 ^ k) :
    (x &&& (~~~(p - 1)).signExtend 64).toNat = x.toNat / 2 ^ k * 2 ^ k := by
  have below : 2 ^ k < 2 ^ 32 := power ▸ p.isLt
  have narrow : k < 32 := (Nat.pow_lt_pow_iff_right (by decide)).mp below
  have positive : 0 < 2 ^ k := Nat.two_pow_pos k
  have low : (p - 1).toNat = 2 ^ k - 1 := by
    rw [BitVec.toNat_sub_of_le (by simp only [BitVec.le_def, power]; exact positive), power]
    rfl
  have half : 2 ^ k ≤ 2 ^ 31 := Nat.pow_le_pow_right (by decide) (by omega)
  have unsigned : (p - 1).msb = false := by
    rw [BitVec.msb_eq_false_iff_two_mul_lt, low]
    omega
  apply Nat.eq_of_testBit_eq
  intro i
  have bit : (p - 1).getLsbD i = decide (i < k) := by
    rw [← BitVec.testBit_toNat, low, Nat.testBit_two_pow_sub_one]
  rw [BitVec.signExtend_not (by decide), BitVec.signExtend_eq_setWidth_of_msb_false unsigned,
    BitVec.testBit_toNat, BitVec.getLsbD_and, BitVec.getLsbD_not, BitVec.getLsbD_setWidth, bit,
    Nat.testBit_mul_two_pow, Nat.testBit_div_two_pow]
  by_cases kept : k ≤ i
  · rw [Nat.sub_add_cancel kept, BitVec.testBit_toNat]
    have high : ¬ i < k := Nat.not_lt.mpr kept
    by_cases inside : i < 64
    · simp [kept, high, inside]
    · simp [BitVec.getLsbD_of_ge x i (Nat.not_lt.mp inside)]
  · have low : i < k := Nat.not_le.mp kept
    have inside : i < 64 := by omega
    simp [kept, low, inside]

end CSE306
