import Mathlib.Algebra.Order.Field.Power
import Mathlib.Data.Rat.Cast.Order
import Mathlib.Tactic.FieldSimp
import Mathlib.Tactic.Linarith
import Mathlib.Tactic.NormNum
import Mathlib.Tactic.Positivity
import Mathlib.Tactic.Ring
import SelectiveDisclosure.Binary64.Rounding

/-!
# Rounded quotients

A quotient below the midpoint above the greatest finite number is rounded to a number, and this lies
at most half a unit in the last place away.
-/

set_option autoImplicit false

namespace SelectiveDisclosure.Binary64

/-! ## Powers of two -/

theorem zpow_eq_div (a : ℕ) (ha : a ≠ 0) (e : ℤ) :
    (a : ℚ) ^ e = (a ^ e.toNat : ℕ) / (a ^ (-e).toNat : ℕ) := by
  have hne : (a : ℚ) ≠ 0 := Nat.cast_ne_zero.2 ha
  push_cast
  rw [← zpow_natCast, ← zpow_natCast, ← zpow_sub₀ hne]
  congr 1
  omega

def magnitude (x : Binary64) : ℚ :=
  x.significand * 2 ^ x.exponent

theorem magnitude_eq_div (x : Binary64) : x.magnitude = x.numerator / x.denominator := by
  have h := zpow_eq_div 2 (by decide) x.exponent
  rw [magnitude, numerator, denominator, Nat.cast_mul, mul_div_assoc]
  exact congrArg _ h

theorem denominator_pos (x : Binary64) : 0 < x.denominator :=
  Nat.two_pow_pos _

theorem magnitude_nonneg (x : Binary64) : 0 ≤ x.magnitude := by
  rw [magnitude]
  positivity

section Quotient
variable {num den : ℕ} (hn : 0 < num) (hd : 0 < den)
include hn hd

theorem binaryOrder_spec : (2 : ℚ) ^ binaryOrder num den ≤ num / den ∧
    (num : ℚ) / den < 2 ^ (binaryOrder num den + 1) := by
  have hden : (0 : ℚ) < den := Nat.cast_pos.2 hd
  have hnum₁ : (2 : ℚ) ^ (num.log2 : ℤ) ≤ num := by
    rw [zpow_natCast]
    exact_mod_cast Nat.log2_self_le (Nat.ne_of_gt hn)
  have hnum₂ : (num : ℚ) < 2 ^ ((num.log2 : ℤ) + 1) := by
    rw [← Nat.cast_succ, zpow_natCast]
    exact_mod_cast Nat.lt_log2_self
  have hden₁ : (2 : ℚ) ^ (den.log2 : ℤ) ≤ den := by
    rw [zpow_natCast]
    exact_mod_cast Nat.log2_self_le (Nat.ne_of_gt hd)
  have hden₂ : (den : ℚ) < 2 ^ ((den.log2 : ℤ) + 1) := by
    rw [← Nat.cast_succ, zpow_natCast]
    exact_mod_cast Nat.lt_log2_self
  have hupper : (num : ℚ) / den < 2 ^ ((num.log2 : ℤ) - den.log2 + 1) := by
    rw [div_lt_iff₀ hden]
    apply lt_of_lt_of_le hnum₂
    have hmul := mul_le_mul_of_nonneg_left hden₁
      (zpow_nonneg (by norm_num : (0 : ℚ) ≤ 2) ((num.log2 : ℤ) - den.log2 + 1))
    rwa [← zpow_add₀ (by norm_num), show (num.log2 : ℤ) - den.log2 + 1 + den.log2 =
      num.log2 + 1 by omega] at hmul
  have hlower : (2 : ℚ) ^ ((num.log2 : ℤ) - den.log2 - 1) ≤ num / den := by
    rw [le_div_iff₀ hden]
    refine le_trans ?_ hnum₁
    have hmul := mul_le_mul_of_nonneg_left (le_of_lt hden₂)
      (zpow_nonneg (by norm_num : (0 : ℚ) ≤ 2) ((num.log2 : ℤ) - den.log2 - 1))
    rwa [← zpow_add₀ (by norm_num), show (num.log2 : ℤ) - den.log2 - 1 + (den.log2 + 1) =
      num.log2 by omega] at hmul
  have hestimate : den * 2 ^ ((num.log2 : ℤ) - den.log2).toNat ≤
      num * 2 ^ (-((num.log2 : ℤ) - den.log2)).toNat ↔
        (2 : ℚ) ^ ((num.log2 : ℤ) - den.log2) ≤ num / den := by
    have hcast := zpow_eq_div 2 (by decide) ((num.log2 : ℤ) - den.log2)
    have hpos : (0 : ℚ) < ((2 ^ (-((num.log2 : ℤ) - den.log2)).toNat : ℕ) : ℚ) :=
      Nat.cast_pos.2 (Nat.two_pow_pos _)
    rw [Nat.cast_ofNat] at hcast
    rw [hcast, div_le_div_iff₀ hpos hden, mul_comm den]
    exact_mod_cast Iff.rfl
  have horder : binaryOrder num den = if den * 2 ^ ((num.log2 : ℤ) - den.log2).toNat ≤
      num * 2 ^ (-((num.log2 : ℤ) - den.log2)).toNat then (num.log2 : ℤ) - den.log2
        else (num.log2 : ℤ) - den.log2 - 1 := rfl
  rw [horder]
  by_cases h : den * 2 ^ ((num.log2 : ℤ) - den.log2).toNat ≤
      num * 2 ^ (-((num.log2 : ℤ) - den.log2)).toNat
  · rw [if_pos h]
    exact ⟨hestimate.1 h, hupper⟩
  · rw [if_neg h]
    refine ⟨hlower, ?_⟩
    rw [hestimate, not_le] at h
    rwa [sub_add_cancel]

end Quotient

theorem nearestEven_bounds (num : ℕ) {den : ℕ} (hd : 0 < den) :
    (num : ℚ) / den - 1 / 2 ≤ nearestEven num den ∧
      (nearestEven num den : ℚ) ≤ num / den + 1 / 2 := by
  have hden : (0 : ℚ) < den := Nat.cast_pos.2 hd
  have hquot : (num : ℚ) / den = (num / den : ℕ) + (num % den : ℕ) / (den : ℚ) := by
    have hdiv : (den : ℚ) * (num / den : ℕ) + (num % den : ℕ) = num := by
      exact_mod_cast Nat.div_add_mod num den
    rw [div_eq_iff (ne_of_gt hden), add_mul, div_mul_cancel₀ _ (ne_of_gt hden)]
    linarith
  have hnonneg : (0 : ℚ) ≤ (num % den : ℕ) / (den : ℚ) := by positivity
  have hlt : ((num % den : ℕ) : ℚ) / den < 1 := by
    rw [div_lt_one hden]
    exact_mod_cast Nat.mod_lt num hd
  rw [nearestEven, hquot]
  by_cases h : den < 2 * (num % den) ∨ (2 * (num % den) = den ∧ num / den % 2 = 1)
  · have hhalf : (1 : ℚ) / 2 ≤ (num % den : ℕ) / (den : ℚ) := by
      have hle : (den : ℚ) ≤ 2 * (num % den : ℕ) := by
        exact_mod_cast (by omega : den ≤ 2 * (num % den))
      rw [div_le_div_iff₀ (by norm_num) hden]
      linarith
    rw [if_pos h]
    push_cast
    constructor <;> linarith
  · have hhalf : ((num % den : ℕ) : ℚ) / den ≤ 1 / 2 := by
      have hle : 2 * ((num % den : ℕ) : ℚ) ≤ den := by
        exact_mod_cast (by omega : 2 * (num % den) ≤ den)
      rw [div_le_div_iff₀ hden (by norm_num)]
      linarith
    rw [if_neg h]
    constructor <;> linarith

/-! ## Rounding -/

/-- The midpoint above the greatest number. -/
def overflow : ℚ := (2 ^ 53 - 1 / 2) * 2 ^ 971

def roundExponent (num den : ℕ) : ℤ :=
  max (-1074) (binaryOrder num den - 52)

def roundSignificand (num den : ℕ) : ℕ :=
  nearestEven (num * 2 ^ (-roundExponent num den).toNat)
    (den * 2 ^ (roundExponent num den).toNat)

theorem round?_eq (negative : Bool) {num den : ℕ} (hn : 0 < num) :
    round? negative num den =
      if roundSignificand num den = significandBound then
        normal? negative hiddenBit (roundExponent num den + 1)
      else normal? negative (roundSignificand num den) (roundExponent num den) :=
  if_neg (Nat.ne_of_gt hn)

theorem normal?_of_normal (negative : Bool) {s : ℕ} {e : ℤ} (h : Normal s e) :
    normal? negative s e = some ⟨negative, s, e, h⟩ :=
  dif_pos h

theorem roundExponent_pos (num den : ℕ) : (0 : ℚ) < 2 ^ roundExponent num den :=
  zpow_pos (by norm_num) _

theorem roundSignificand_bounds (num : ℕ) {den : ℕ} (hd : 0 < den) :
    (num : ℚ) / den / 2 ^ roundExponent num den - 1 / 2 ≤ roundSignificand num den ∧
      (roundSignificand num den : ℚ) ≤ num / den / 2 ^ roundExponent num den + 1 / 2 := by
  have hden : 0 < den * 2 ^ (roundExponent num den).toNat :=
    Nat.mul_pos hd (Nat.two_pow_pos _)
  have hscaled : ((num * 2 ^ (-roundExponent num den).toNat : ℕ) : ℚ) /
      (den * 2 ^ (roundExponent num den).toNat : ℕ) =
        num / den / 2 ^ roundExponent num den := by
    have hcast := zpow_eq_div 2 (by decide) (roundExponent num den)
    rw [Nat.cast_ofNat] at hcast
    rw [hcast]
    push_cast
    field_simp
  have hbounds := nearestEven_bounds (num * 2 ^ (-roundExponent num den).toNat) hden
  rwa [hscaled] at hbounds

section Rounding
variable {num den : ℕ} (hn : 0 < num) (hd : 0 < den)
include hn hd

theorem roundSignificand_le : roundSignificand num den ≤ significandBound := by
  have hpos := roundExponent_pos num den
  have hge : binaryOrder num den - 52 ≤ roundExponent num den := le_max_right _ _
  have hupper : (num : ℚ) / den / 2 ^ roundExponent num den < 2 ^ 53 := by
    rw [div_lt_iff₀ hpos]
    apply lt_of_lt_of_le (binaryOrder_spec hn hd).2
    rw [← zpow_natCast, ← zpow_add₀ (by norm_num)]
    exact zpow_le_zpow_right₀ (by norm_num) (by push_cast; omega)
  have hlt : (roundSignificand num den : ℚ) < (significandBound + 1 : ℕ) := by
    have hle := (roundSignificand_bounds num hd).2
    rw [significandBound]
    push_cast
    linarith
  exact Nat.le_of_lt_succ (by exact_mod_cast hlt)

theorem hiddenBit_le (h : roundExponent num den ≠ -1074) :
    hiddenBit ≤ roundSignificand num den := by
  have hpos := roundExponent_pos num den
  have he : roundExponent num den = binaryOrder num den - 52 := by
    rw [roundExponent] at h ⊢
    omega
  have hlower : (2 : ℚ) ^ 52 ≤ num / den / 2 ^ roundExponent num den := by
    rw [le_div_iff₀ hpos, he, ← zpow_natCast, ← zpow_add₀ (by norm_num)]
    refine le_trans (le_of_eq ?_) (binaryOrder_spec hn hd).1
    congr 1
    push_cast
    omega
  have hlt : ((hiddenBit : ℕ) : ℚ) < (roundSignificand num den + 1 : ℕ) := by
    have hle := (roundSignificand_bounds num hd).1
    rw [hiddenBit]
    push_cast
    linarith
  exact Nat.le_of_lt_succ (by exact_mod_cast hlt)

variable (h : (num : ℚ) / den < overflow)
include h

theorem roundExponent_le : roundExponent num den ≤ 971 := by
  have hbig : overflow < 2 ^ (1024 : ℤ) := by
    rw [overflow, show (1024 : ℤ) = ((53 + 971 : ℕ) : ℤ) from rfl, zpow_natCast, pow_add]
    exact mul_lt_mul_of_pos_right (by norm_num) (by positivity)
  have hlt : binaryOrder num den < 1024 :=
    (zpow_lt_zpow_iff_right₀ (by norm_num)).1
      (lt_trans (lt_of_le_of_lt (binaryOrder_spec hn hd).1 h) hbig)
  rw [roundExponent]
  omega

omit hn in
/-- Only below the last exponent a significand is rounded up to one that is too long. -/
theorem roundExponent_lt (hs : roundSignificand num den = significandBound) :
    roundExponent num den < 971 := by
  have hpos := roundExponent_pos num den
  have hfull : (2 ^ 53 - 1 / 2 : ℚ) ≤ num / den / 2 ^ roundExponent num den := by
    have hle := (roundSignificand_bounds num hd).2
    rw [hs, significandBound] at hle
    push_cast at hle
    linarith
  have hlt : (2 : ℚ) ^ roundExponent num den < 2 ^ (971 : ℤ) := by
    rw [le_div_iff₀ hpos] at hfull
    have hchain := lt_of_le_of_lt hfull h
    rw [overflow] at hchain
    exact lt_of_mul_lt_mul_left hchain (by norm_num)
  exact (zpow_lt_zpow_iff_right₀ (by norm_num)).1 hlt

/-- Below the midpoint above the greatest number every quotient has a nearest number. -/
theorem exists_round? (negative : Bool) :
    ∃ x, round? negative num den = some x ∧
      num / den - 2 ^ roundExponent num den / 2 ≤ x.magnitude ∧
      x.magnitude ≤ num / den + 2 ^ roundExponent num den / 2 := by
  have hpos := roundExponent_pos num den
  have hbounds := roundSignificand_bounds num hd
  have hlower : (num : ℚ) / den - 2 ^ roundExponent num den / 2 ≤
      roundSignificand num den * 2 ^ roundExponent num den := by
    have hmul := mul_le_mul_of_nonneg_right hbounds.1 (le_of_lt hpos)
    rwa [sub_mul, div_mul_cancel₀ _ (ne_of_gt hpos), one_div_mul_eq_div] at hmul
  have hupper : (roundSignificand num den : ℚ) * 2 ^ roundExponent num den ≤
      num / den + 2 ^ roundExponent num den / 2 := by
    have hmul := mul_le_mul_of_nonneg_right hbounds.2 (le_of_lt hpos)
    rwa [add_mul, div_mul_cancel₀ _ (ne_of_gt hpos), one_div_mul_eq_div] at hmul
  have hge : -1074 ≤ roundExponent num den := le_max_left _ _
  rw [round?_eq negative hn]
  by_cases hs : roundSignificand num den = significandBound
  · have hlt := roundExponent_lt hd h hs
    have hnormal : Normal hiddenBit (roundExponent num den + 1) :=
      ⟨by decide, by omega, by omega, .inr (Nat.le_refl _)⟩
    rw [if_pos hs, normal?_of_normal negative hnormal]
    have hsame : (hiddenBit : ℚ) * 2 ^ (roundExponent num den + 1) =
        roundSignificand num den * 2 ^ roundExponent num den := by
      rw [hs, zpow_add₀ (by norm_num)]
      norm_num [hiddenBit, significandBound]
      ring
    exact ⟨_, rfl, le_of_le_of_eq hlower hsame.symm, le_of_eq_of_le hsame hupper⟩
  · have hle := roundSignificand_le hn hd
    have hnormal : Normal (roundSignificand num den) (roundExponent num den) := by
      refine ⟨by omega, hge, roundExponent_le hn hd h, ?_⟩
      by_cases he : roundExponent num den = -1074
      · exact .inl he
      · exact .inr (hiddenBit_le hn hd he)
    rw [if_neg hs, normal?_of_normal negative hnormal]
    exact ⟨_, rfl, hlower, hupper⟩

omit h in
theorem half_le : (2 : ℚ) ^ roundExponent num den / 2 ≤ num / den / 2 ^ 53 ∨
    (2 : ℚ) ^ roundExponent num den / 2 ≤ 1 ∧ (num : ℚ) / den < 1 := by
  obtain ⟨hlower, hupper⟩ := binaryOrder_spec hn hd
  by_cases he : roundExponent num den = binaryOrder num den - 52
  · left
    rw [he, zpow_sub₀ (by norm_num), div_div]
    refine le_trans (le_of_eq ?_) (div_le_div_of_nonneg_right hlower (by positivity))
    norm_num
  · right
    have hsmall : binaryOrder num den + 1 ≤ 0 ∧ roundExponent num den ≤ 0 := by
      rw [roundExponent] at he ⊢
      omega
    have hone : (2 : ℚ) ^ (0 : ℤ) = 1 := zpow_zero 2
    constructor
    · have hle : (2 : ℚ) ^ roundExponent num den ≤ 2 ^ (0 : ℤ) :=
        zpow_le_zpow_right₀ (by norm_num) hsmall.2
      linarith
    · have hle : (2 : ℚ) ^ (binaryOrder num den + 1) ≤ 2 ^ (0 : ℤ) :=
        zpow_le_zpow_right₀ (by norm_num) hsmall.1
      linarith

end Rounding

/-! ## Arithmetic -/

theorem magnitude_zero (negative : Bool) : (zero negative).magnitude = 0 := by
  rw [magnitude, zero]
  norm_num

theorem exists_round?_le (negative : Bool) (num : ℕ) {den : ℕ} (hd : 0 < den)
    (h : (num : ℚ) / den < overflow) :
    ∃ x, round? negative num den = some x ∧ x.magnitude ≤ 2 * (num / den) + 1 := by
  by_cases hn : num = 0
  · subst hn
    refine ⟨zero negative, if_pos rfl, ?_⟩
    rw [magnitude_zero]
    norm_num
  · have hpos : 0 < num := Nat.pos_of_ne_zero hn
    obtain ⟨x, hx, -, hle⟩ := exists_round? hpos hd h negative
    refine ⟨x, hx, ?_⟩
    have hnonneg : (0 : ℚ) ≤ num / den := by positivity
    have hsmall : (num : ℚ) / den / 2 ^ 53 ≤ num / den := div_le_self hnonneg (by norm_num)
    rcases half_le hpos hd with hhalf | ⟨hhalf, -⟩
    · linarith
    · linarith

theorem exists_round?_one (negative : Bool) {n : ℕ} (hn : 0 < n) (h : (n : ℚ) < overflow) :
    ∃ x, round? negative n 1 = some x ∧ (n : ℚ) * (1 - 1 / 2 ^ 53) ≤ x.magnitude ∧
      x.magnitude ≤ n * (1 + 1 / 2 ^ 53) := by
  have hone : (n : ℚ) / (1 : ℕ) = n := by rw [Nat.cast_one, div_one]
  obtain ⟨x, hx, hlower, hupper⟩ := exists_round? hn Nat.one_pos (hone.symm ▸ h) negative
  rw [hone] at hlower hupper
  have hge : (1 : ℚ) ≤ n := by exact_mod_cast hn
  rcases half_le hn Nat.one_pos with hhalf | ⟨-, hlt⟩
  · rw [hone] at hhalf
    refine ⟨x, hx, ?_, ?_⟩
    · linarith
    · linarith
  · rw [hone] at hlt
    linarith

theorem exists_mul? {x y : Binary64} (h : x.magnitude * y.magnitude < overflow) :
    ∃ z, x.mul? y = some z := by
  have hd : 0 < x.denominator * y.denominator :=
    Nat.mul_pos x.denominator_pos y.denominator_pos
  rw [magnitude_eq_div, magnitude_eq_div, div_mul_div_comm] at h
  obtain ⟨z, hz, -⟩ := exists_round?_le (x.negative != y.negative)
    (x.numerator * y.numerator) hd (by push_cast; exact h)
  exact ⟨z, hz⟩

theorem exists_div? {x y : Binary64} (hy : 1 ≤ y.magnitude) (hx : x.magnitude < overflow) :
    ∃ z, x.div? y = some z ∧ z.magnitude ≤ 2 * (x.magnitude / y.magnitude) + 1 := by
  have hpos : (0 : ℚ) < y.magnitude := lt_of_lt_of_le one_pos hy
  have hnum : 0 < y.numerator := by
    apply Nat.pos_of_ne_zero
    intro hzero
    rw [magnitude_eq_div, hzero, Nat.cast_zero, zero_div] at hpos
    exact lt_irrefl 0 hpos
  have hd : 0 < x.denominator * y.numerator := Nat.mul_pos x.denominator_pos hnum
  have hquot : ((x.numerator * y.denominator : ℕ) : ℚ) / (x.denominator * y.numerator : ℕ) =
      x.magnitude / y.magnitude := by
    rw [magnitude_eq_div, magnitude_eq_div]
    push_cast
    rw [div_div_div_eq]
  have hle : x.magnitude / y.magnitude ≤ x.magnitude := div_le_self x.magnitude_nonneg hy
  obtain ⟨z, hz, hbound⟩ := exists_round?_le (x.negative != y.negative)
    (x.numerator * y.denominator) hd (by rw [hquot]; exact lt_of_le_of_lt hle hx)
  rw [hquot] at hbound
  exact ⟨z, hz, hbound⟩

theorem pow_ten_lt {k : ℕ} (hk : k ≤ 308) : ((10 ^ k : ℕ) : ℚ) < overflow := by
  have hall : ∀ k ≤ 308, 10 ^ k < (2 ^ 53 - 1) * 2 ^ 971 := by decide +kernel
  have hlt : ((10 ^ k : ℕ) : ℚ) < ((2 ^ 53 - 1) * 2 ^ 971 : ℕ) := by
    exact_mod_cast hall k hk
  apply lt_trans hlt
  rw [overflow, Nat.cast_mul, Nat.cast_pow, Nat.cast_ofNat]
  exact mul_lt_mul_of_pos_right (by norm_num) (by positivity)

theorem exists_powerOfTen? {k : ℕ} (hk : k ≤ 308) :
    ∃ p, powerOfTen? k = some p ∧ (10 : ℚ) ^ k * (1 - 1 / 2 ^ 53) ≤ p.magnitude ∧
      p.magnitude ≤ 10 ^ k * (1 + 1 / 2 ^ 53) := by
  obtain ⟨p, hp, hlower, hupper⟩ := exists_round?_one false
    (Nat.pow_pos (by decide) : 0 < 10 ^ k) (pow_ten_lt hk)
  push_cast at hlower hupper
  exact ⟨p, hp, hlower, hupper⟩

end SelectiveDisclosure.Binary64
