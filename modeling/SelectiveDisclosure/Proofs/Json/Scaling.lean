import SelectiveDisclosure.Json.Number
import SelectiveDisclosure.Proofs.Binary64.Rounding

/-!
# Scaled significands

A literal gives the digits that fit and a power of ten. The digits are rounded, the power is
rounded, and so is their product. None of these steps overflows below a bound that lies a few units
under the greatest number.
-/

set_option autoImplicit false

namespace SelectiveDisclosure.Json.Number

open Binary64

/-! ## Significands -/

theorem mul_pow_le_ofDigitChars (n : ℕ) (cs : List Char) :
    n * 10 ^ cs.length ≤ Nat.ofDigitChars 10 cs n := by
  rw [Nat.ofDigitChars_eq_ofDigitChars_zero, Nat.mul_comm]
  exact Nat.le_add_right _ _

theorem le_ofDigitChars (n : ℕ) (cs : List Char) : n ≤ Nat.ofDigitChars 10 cs n :=
  Nat.le_trans (Nat.le_mul_of_pos_right n (Nat.pow_pos (by decide)))
    (mul_pow_le_ofDigitChars n cs)

theorem ofDigitChars_lt {cs : List Char} (h : ∀ c ∈ cs, c.isDigit = true) (n : ℕ) :
    Nat.ofDigitChars 10 cs n < (n + 1) * 10 ^ cs.length := by
  induction cs generalizing n with
  | nil => exact Nat.lt_of_lt_of_eq (Nat.lt_succ_self n) (Nat.mul_one _).symm
  | cons c r ih =>
    obtain ⟨hc, hr⟩ := List.forall_mem_cons.1 h
    have hdigit : c.toNat - '0'.toNat ≤ 9 := by
      rw [Char.isDigit, Bool.and_eq_true, decide_eq_true_eq, decide_eq_true_eq] at hc
      have hle : c.toNat ≤ '9'.toNat := hc.2
      exact Nat.sub_le_sub_right hle _
    rw [Nat.ofDigitChars_cons]
    apply Nat.lt_of_lt_of_le (ih hr _)
    rw [List.length_cons, Nat.pow_succ, Nat.mul_comm (10 ^ r.length), ← Nat.mul_assoc]
    exact Nat.mul_le_mul_right _ (by omega)

theorem significand_eq {n : ℕ} {cs : List Char}
    (h : Nat.ofDigitChars 10 cs n < 0x10000000000000000) :
    significand n cs = (Nat.ofDigitChars 10 cs n, 0) := by
  induction cs generalizing n with
  | nil => rfl
  | cons c r ih =>
    rw [Nat.ofDigitChars_cons] at h ⊢
    rw [significand, if_pos (Nat.lt_of_le_of_lt (le_ofDigitChars _ r) h), ih h]

/-- The digits taken make a number that fits, and it is not too great for its place. -/
theorem significand_spec {n : ℕ} (hn : n < 0x10000000000000000) (cs : List Char) :
    (significand n cs).1 < 0x10000000000000000 ∧
      (significand n cs).1 * 10 ^ (significand n cs).2 ≤ Nat.ofDigitChars 10 cs n := by
  induction cs generalizing n with
  | nil => exact ⟨hn, Nat.le_of_eq (Nat.mul_one n)⟩
  | cons c r ih =>
    rw [Nat.ofDigitChars_cons, significand]
    by_cases hm : 10 * n + (c.toNat - '0'.toNat) < 0x10000000000000000
    · rw [if_pos hm]
      exact ih hm
    · rw [if_neg hm]
      refine ⟨hn, Nat.le_trans ?_ (mul_pow_le_ofDigitChars _ r)⟩
      rw [Nat.pow_succ, Nat.mul_comm (10 ^ r.length), ← Nat.mul_assoc, Nat.mul_comm n 10]
      exact Nat.mul_le_mul_right _ (Nat.le_add_right _ _)

theorem mul_zpow_le {m n k : ℕ} {a b : ℤ} (h : m * 10 ^ k ≤ n) (hab : b ≤ k + a) :
    (m : ℚ) * 10 ^ b ≤ n * 10 ^ a := by
  have hcast : (m : ℚ) * 10 ^ k ≤ n := by exact_mod_cast h
  calc (m : ℚ) * 10 ^ b ≤ m * 10 ^ (k + a) :=
        mul_le_mul_of_nonneg_left (zpow_le_zpow_right₀ (by norm_num) hab) (Nat.cast_nonneg m)
    _ = m * 10 ^ k * 10 ^ a := by rw [zpow_add₀ (by norm_num), zpow_natCast, mul_assoc]
    _ ≤ n * 10 ^ a := mul_le_mul_of_nonneg_right hcast (by positivity)

/-! ## Scaling -/

/-- Up to here no step of the scaling overflows. -/
def scalable : ℚ := (2 ^ 53 - 4) * 2 ^ 971

theorem scalable_lt : scalable < 10 ^ 309 := by
  have hlt : 9007199254740988 * 2 ^ 971 < 10 ^ 309 := by decide +kernel
  have hcast : (9007199254740988 : ℚ) * 2 ^ 971 < 10 ^ 309 := by exact_mod_cast hlt
  rwa [scalable, show (2 : ℚ) ^ 53 - 4 = 9007199254740988 by norm_num]

theorem mul_lt_overflow {a : ℚ} (h : a ≤ scalable) :
    a * (1 + 1 / 2 ^ 53) * (1 + 1 / 2 ^ 53) < overflow := by
  have hstep : scalable * (1 + 1 / 2 ^ 53) * (1 + 1 / 2 ^ 53) < overflow := by
    have hpos : (0 : ℚ) < 2 ^ 971 := by positivity
    rw [scalable, overflow]
    generalize (2 : ℚ) ^ 971 = unit at hpos ⊢
    linarith
  refine lt_of_le_of_lt ?_ hstep
  gcongr

theorem two_pow_lt_overflow : (2 : ℚ) ^ 65 < overflow := by
  calc (2 : ℚ) ^ 65 ≤ 2 ^ 971 := pow_le_pow_right₀ (by norm_num) (by norm_num)
    _ = 1 * 2 ^ 971 := (one_mul _).symm
    _ < overflow := mul_lt_mul_of_pos_right (by norm_num) (by positivity)

theorem four_le_powerOfTen? {k : ℕ} (hk : 0 < k) (hle : k ≤ 308) :
    ∃ p, powerOfTen? k = some p ∧ 4 ≤ p.magnitude := by
  obtain ⟨p, hp, hlower, -⟩ := exists_powerOfTen? hle
  refine ⟨p, hp, le_trans ?_ hlower⟩
  have hten : (10 : ℚ) ^ 1 ≤ 10 ^ k := pow_le_pow_right₀ (by norm_num) hk
  have hmul := mul_le_mul_of_nonneg_right hten (by norm_num : (0 : ℚ) ≤ 1 - 1 / 2 ^ 53)
  refine le_trans ?_ hmul
  norm_num

theorem exists_descend {x : Binary64} (k : ℕ) (hx : x.magnitude ≤ 2 ^ 65) :
    ∃ y, descend k x = some y ∧ y.magnitude ≤ 2 ^ 65 := by
  induction k generalizing x with
  | zero => exact ⟨x, rfl, hx⟩
  | succ k ih =>
    rw [descend]
    by_cases hzero : x.isZero = true
    · rw [if_pos hzero]
      exact ⟨x, rfl, hx⟩
    rw [if_neg hzero]
    obtain ⟨p, hp, hfour⟩ := four_le_powerOfTen? (k := 308) (by decide) (Nat.le_refl _)
    obtain ⟨y, hy, hle⟩ := exists_div? (le_trans (by norm_num) hfour)
      (lt_of_le_of_lt hx two_pow_lt_overflow)
    have hquarter : x.magnitude / p.magnitude ≤ 2 ^ 65 / 4 :=
      div_le_div₀ (by norm_num) hx (by norm_num) hfour
    simp only [hp, hy, Option.bind_eq_bind, Option.bind_some]
    exact ih (le_trans hle (by linarith))

section Scaling
variable {m : ℕ} {e : ℤ} (hm : m < 0x10000000000000000)
include hm

theorem exists_round?_significand : ∃ x, round? false m 1 = some x ∧
    x.magnitude ≤ m * (1 + 1 / 2 ^ 53) ∧ x.magnitude ≤ 2 ^ 65 ∧ (m = 0 → x.isZero = true) := by
  have hlt : (m : ℚ) < 2 ^ 64 := by exact_mod_cast hm
  by_cases hzero : m = 0
  · subst hzero
    refine ⟨zero false, rfl, ?_, ?_, fun _ => rfl⟩
    · rw [magnitude_zero]
      norm_num
    · rw [magnitude_zero]
      norm_num
  · have hoverflow : (m : ℚ) < overflow :=
      lt_trans (lt_trans hlt (by norm_num)) two_pow_lt_overflow
    obtain ⟨x, hx, -, hle⟩ := exists_round?_one false (Nat.pos_of_ne_zero hzero) hoverflow
    refine ⟨x, hx, hle, le_trans hle ?_, fun h => absurd h hzero⟩
    linarith

theorem exists_scaled? (h : (m : ℚ) * 10 ^ e ≤ scalable) : ∃ x, scaled? m e = some x := by
  obtain ⟨x, hx, hle, hbound, hzero⟩ := exists_round?_significand hm
  have hx' := lt_of_le_of_lt hbound two_pow_lt_overflow
  rw [scaled?, hx, Option.bind_eq_bind, Option.bind_some]
  by_cases hsmall : e.natAbs ≤ 308
  · rw [if_pos hsmall]
    by_cases he : 0 ≤ e
    · obtain ⟨p, hp, -, hupper⟩ := exists_powerOfTen? hsmall
      rw [hp, Option.bind_some, if_pos he]
      refine exists_mul? (lt_of_le_of_lt ?_ (mul_lt_overflow h))
      have hpow : (10 : ℚ) ^ e = 10 ^ e.natAbs := by
        rw [← zpow_natCast, Int.natAbs_of_nonneg he]
      calc x.magnitude * p.magnitude
          ≤ (m * (1 + 1 / 2 ^ 53)) * (10 ^ e.natAbs * (1 + 1 / 2 ^ 53)) :=
            mul_le_mul hle hupper p.magnitude_nonneg (by positivity)
        _ = m * 10 ^ e * (1 + 1 / 2 ^ 53) * (1 + 1 / 2 ^ 53) := by
            rw [hpow]
            ring
    · obtain ⟨p, hp, hfour⟩ := four_le_powerOfTen? (by omega : 0 < e.natAbs) hsmall
      obtain ⟨y, hy, -⟩ := exists_div? (le_trans (by norm_num) hfour) hx'
      rw [hp, Option.bind_some, if_neg he]
      exact ⟨y, hy⟩
  · rw [if_neg hsmall]
    by_cases hx0 : x.isZero = true
    · rw [if_pos hx0]
      exact ⟨x, rfl⟩
    rw [if_neg hx0]
    have hpos : 0 < m := Nat.pos_of_ne_zero fun h0 => hx0 (hzero h0)
    by_cases he : 0 ≤ e
    · exfalso
      have hten : (10 : ℚ) ^ (309 : ℤ) ≤ 10 ^ e := zpow_le_zpow_right₀ (by norm_num) (by omega)
      have hone : (1 : ℚ) ≤ m := by exact_mod_cast hpos
      have hbig : (10 : ℚ) ^ e ≤ m * 10 ^ e := le_mul_of_one_le_left (by positivity) hone
      exact not_lt_of_ge (le_trans hten (le_trans hbig h)) scalable_lt
    · obtain ⟨y, hy, hybound⟩ := exists_descend ((e.natAbs - 1) / 308) hbound
      obtain ⟨p, hp, hfour⟩ := four_le_powerOfTen?
        (k := e.natAbs - 308 * ((e.natAbs - 1) / 308)) (by omega) (by omega)
      obtain ⟨z, hz, -⟩ := exists_div? (le_trans (by norm_num) hfour)
        (lt_of_le_of_lt hybound two_pow_lt_overflow)
      simp only [if_neg he, hy, hp, Option.bind_some]
      exact ⟨z, hz⟩

end Scaling

end SelectiveDisclosure.Json.Number
