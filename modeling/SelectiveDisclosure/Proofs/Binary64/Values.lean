import Mathlib.Data.Rat.Floor
import SelectiveDisclosure.Proofs.Binary64.Rounding
import SelectiveDisclosure.Proofs.Time.NumericDate

/-!
# The rationals that binary numbers stand for

The bits of the interchange format give the number whose value their fields describe. The floor of a
number is the floor of its value, and this is the value of a number again, so that it is found
without rounding.
-/

set_option autoImplicit false

namespace SelectiveDisclosure.Binary64

/-! ## Values -/

def toRat (x : Binary64) : ℚ :=
  if x.negative then -x.magnitude else x.magnitude

theorem abs_toRat (x : Binary64) : |x.toRat| = x.magnitude := by
  have h := abs_of_nonneg x.magnitude_nonneg
  rw [toRat]
  split_ifs
  · rw [abs_neg, h]
  · exact h

theorem toRat_eq_div (x : Binary64) : x.toRat = x.signedNumerator / x.denominator := by
  rw [toRat, signedNumerator, magnitude_eq_div]
  split_ifs
  · push_cast
    rw [neg_div]
  · rfl

theorem numerator_lt_iff {x : Binary64} {k : ℕ} :
    x.numerator < k * x.denominator ↔ |x.toRat| < k := by
  have hpos : (0 : ℚ) < x.denominator := Nat.cast_pos.2 x.denominator_pos
  rw [abs_toRat, magnitude_eq_div, div_lt_iff₀ hpos]
  exact_mod_cast Iff.rfl

theorem floor_eq_floor_toRat (x : Binary64) : x.floor = ⌊x.toRat⌋ := by
  rw [floor_eq, Int.fdiv_eq_ediv_of_nonneg _ (Int.natCast_nonneg _), toRat_eq_div]
  exact (Rat.floor_intCast_div_natCast _ _).symm

theorem floor_bounds {x : Binary64} {k : ℤ} (h : |x.toRat| < k) :
    -k ≤ ⌊x.toRat⌋ ∧ ⌊x.toRat⌋ < k := by
  obtain ⟨hlower, hupper⟩ := abs_lt.1 h
  refine ⟨Int.le_floor.2 ?_, Int.floor_lt.2 hupper⟩
  rw [Int.cast_neg]
  exact le_of_lt hlower

theorem signedNumerator_eq_iff {x : Binary64} {n : ℤ} :
    x.signedNumerator = n * x.denominator ↔ x.toRat = n := by
  have hne : (x.denominator : ℚ) ≠ 0 := Nat.cast_ne_zero.2 (Nat.ne_of_gt x.denominator_pos)
  rw [toRat_eq_div, div_eq_iff hne]
  exact_mod_cast Iff.rfl

/-! ## Rounding down and converting to an integer -/

theorem exists_toRat_eq {n : ℤ} (h : n.natAbs < significandBound) :
    ∃ x : Binary64, x.toRat = n := by
  obtain ⟨x, -, hsign, hx⟩ := ofInt?_of_natAbs_lt h
  exact ⟨x, signedNumerator_eq_iff.1 (signedNumerator_eq hsign hx)⟩

/-- Rounding a binary number down to a whole one needs no second rounding. -/
theorem exists_toRat_eq_floor (x : Binary64) : ∃ y : Binary64, y.toRat = ⌊x.toRat⌋ := by
  by_cases he : 0 ≤ x.exponent
  · have hone : x.denominator = 1 := by
      rw [denominator, show (-x.exponent).toNat = 0 by omega]
    refine ⟨x, ?_⟩
    rw [toRat_eq_div, hone, Nat.cast_one, div_one, Int.floor_intCast]
  · -- A number with fractional places has at most 52 others.
    have hsmall : |x.toRat| < (hiddenBit : ℤ) := by
      have hsignificand : (x.significand : ℚ) < significandBound := by
        exact_mod_cast x.normal.1
      have hhalf : (2 : ℚ) ^ x.exponent ≤ 2 ^ (-1 : ℤ) :=
        zpow_le_zpow_right₀ (by norm_num) (by omega)
      rw [abs_toRat, magnitude]
      calc (x.significand : ℚ) * 2 ^ x.exponent
          ≤ x.significand * 2 ^ (-1 : ℤ) := mul_le_mul_of_nonneg_left hhalf (Nat.cast_nonneg _)
        _ < significandBound * 2 ^ (-1 : ℤ) := mul_lt_mul_of_pos_right hsignificand (by norm_num)
        _ = (hiddenBit : ℤ) := by norm_num [significandBound, hiddenBit]
    have hbounds := floor_bounds hsmall
    have hlt : hiddenBit < significandBound := by decide
    exact exists_toRat_eq (by omega)

/-- The conversion to a signed integer of 64 bits: towards zero, and to the nearest end of the range
from outside it. -/
def toInt64 (x : Binary64) : ℤ :=
  max (-0x8000000000000000) (min 0x7fffffffffffffff (Int.tdiv x.signedNumerator x.denominator))

theorem toInt64_of_toRat_eq {x : Binary64} {n : ℤ} (h : x.toRat = n)
    (hn : -0x8000000000000000 ≤ n ∧ n < 0x8000000000000000) : x.toInt64 = n := by
  have hne : (x.denominator : ℤ) ≠ 0 := Int.natCast_ne_zero.2 (Nat.ne_of_gt x.denominator_pos)
  rw [toInt64, signedNumerator_eq_iff.2 h, Int.mul_tdiv_cancel _ hne]
  omega

theorem exists_ofInt?_greatest :
    ∃ x, ofInt? 0x7fffffffffffffff = some x ∧ x.toRat = 0x8000000000000000 := by
  refine ⟨⟨false, hiddenBit, 11, by decide⟩, by decide +kernel, ?_⟩
  norm_num [toRat, magnitude, hiddenBit]

/-! ## The interchange format -/

def fractionField (bits : UInt64) : ℕ :=
  (bits &&& 0xfffffffffffff).toNat

def exponentField (bits : UInt64) : ℕ :=
  (bits >>> 52 &&& 0x7ff).toNat

def signField (bits : UInt64) : ℕ :=
  (bits >>> 63).toNat

/-- The rational described by bits whose exponent field is not full. The fraction has a one in
front of it, unless the exponent field is empty. -/
def described (bits : UInt64) : ℚ :=
  (-1) ^ signField bits *
    if exponentField bits = 0 then (fractionField bits : ℚ) / 2 ^ 52 * 2 ^ (-1022 : ℤ)
    else (1 + (fractionField bits : ℚ) / 2 ^ 52) * 2 ^ ((exponentField bits : ℤ) - 1023)

theorem fractionField_eq (bits : UInt64) : fractionField bits = bits.toNat % hiddenBit := by
  rw [fractionField, UInt64.toNat_and]
  exact Nat.and_two_pow_sub_one_eq_mod _ 52

theorem exponentField_eq (bits : UInt64) :
    exponentField bits = bits.toNat / hiddenBit % 2048 := by
  rw [exponentField, UInt64.toNat_and, UInt64.toNat_shiftRight]
  exact (Nat.and_two_pow_sub_one_eq_mod _ 11).trans
    (congrArg (· % 2048) (Nat.shiftRight_eq_div_pow bits.toNat 52))

theorem signField_eq (bits : UInt64) : signField bits = bits.toNat / 0x8000000000000000 := by
  rw [signField, UInt64.toNat_shiftRight]
  exact Nat.shiftRight_eq_div_pow bits.toNat 63

theorem toRat_mk {bits : UInt64} {s : ℕ} {e : ℤ} (h : Normal s e) :
    toRat ⟨signField bits == 1, s, e, h⟩ = (-1) ^ signField bits * (s * 2 ^ e) := by
  have hlt : signField bits < 2 := by
    rw [signField_eq]
    exact Nat.div_lt_of_lt_mul bits.toNat_lt
  rw [toRat, magnitude]
  rcases (by omega : signField bits = 0 ∨ signField bits = 1) with hsign | hsign
  · rw [hsign, pow_zero, one_mul]
    rfl
  · rw [hsign, pow_one, neg_one_mul]
    rfl

theorem exists_ofBits {bits : UInt64} (h : exponentField bits ≠ 2047) :
    ∃ x, ofBits bits = some x ∧ x.toRat = described bits := by
  have hfraction : fractionField bits < hiddenBit := by
    rw [fractionField_eq]
    exact Nat.mod_lt _ (by decide)
  have hexponent : exponentField bits < 2048 := by
    rw [exponentField_eq]
    exact Nat.mod_lt _ (by decide)
  have hbits : ofBits bits = if exponentField bits = 2047 then none
      else if exponentField bits = 0 then
        normal? (signField bits == 1) (fractionField bits) (-1074)
      else normal? (signField bits == 1) (hiddenBit + fractionField bits)
        ((exponentField bits : ℤ) - 1075) := by
    rw [fractionField_eq, exponentField_eq, signField_eq]
    rfl
  have hbound : significandBound = 2 * hiddenBit := rfl
  have hplace : (2 : ℚ) ^ (-52 : ℤ) = 1 / 2 ^ 52 := by norm_num
  rw [hbits, described, if_neg h]
  by_cases hzero : exponentField bits = 0
  · have hnormal : Normal (fractionField bits) (-1074) :=
      ⟨by omega, by decide, by decide, .inl rfl⟩
    rw [if_pos hzero, if_pos hzero, normal?_of_normal _ hnormal]
    refine ⟨_, rfl, ?_⟩
    rw [toRat_mk, show (-1074 : ℤ) = -52 + -1022 by decide, zpow_add₀ (by norm_num), hplace]
    ring
  · have hnormal : Normal (hiddenBit + fractionField bits) ((exponentField bits : ℤ) - 1075) :=
      ⟨by omega, by omega, by omega, .inr (by omega)⟩
    rw [if_neg hzero, if_neg hzero, normal?_of_normal _ hnormal]
    refine ⟨_, rfl, ?_⟩
    rw [toRat_mk, show (exponentField bits : ℤ) - 1075 = -52 + (exponentField bits - 1023) by ring,
      zpow_add₀ (by norm_num), hplace, hiddenBit]
    push_cast
    ring

end SelectiveDisclosure.Binary64
