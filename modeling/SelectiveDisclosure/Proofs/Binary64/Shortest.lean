import SelectiveDisclosure.Binary64.Shortest
import SelectiveDisclosure.Proofs.Binary64.Rounding

/-!
# Shortest decimals

The shortest decimal of a number is not above the midpoint to the next number.
-/

set_option autoImplicit false

namespace SelectiveDisclosure

def Decimal.value (d : Decimal) : ℚ :=
  d.digits * 10 ^ d.exponent

namespace Binary64
variable {x : Binary64} {k : ℤ} {d : Decimal}

/-- A decimal that reads back is a positive multiple of its place and lies below the midpoint. -/
structure Within (x : Binary64) (d : Decimal) : Prop where
  pos : 0 < d.digits
  le : d.value ≤ (x.significand + 1 / 2) * 2 ^ x.exponent

theorem within_of_bounds (hx : 0 < x.significand) {n : ℕ}
    (hlow : (4 * x.significand - x.quartersBelow) * 2 ^ (x.exponent - 2).toNat *
      10 ^ (-k).toNat ≤ n * (10 ^ k.toNat * 2 ^ (2 - x.exponent).toNat))
    (hhigh : n * (10 ^ k.toNat * 2 ^ (2 - x.exponent).toNat) ≤
      (4 * x.significand + 2) * 2 ^ (x.exponent - 2).toNat * 10 ^ (-k).toNat) :
    x.Within ⟨n, k⟩ := by
  constructor
  · apply Nat.pos_of_ne_zero
    intro hzero
    have hquarters : x.quartersBelow ≤ 2 := by
      rw [quartersBelow]
      split <;> decide
    have hpos : 0 < (4 * x.significand - x.quartersBelow) * 2 ^ (x.exponent - 2).toNat *
        10 ^ (-k).toNat :=
      Nat.mul_pos (Nat.mul_pos (by omega) (Nat.two_pow_pos _)) (Nat.pow_pos (by decide))
    have hnone : n = 0 := hzero
    rw [hnone, Nat.zero_mul] at hlow
    omega
  · have hten := zpow_eq_div 10 (by decide) k
    have htwo := zpow_eq_div 2 (by decide) (x.exponent - 2)
    have hneg : (-(x.exponent - 2)).toNat = (2 - x.exponent).toNat := by
      rw [neg_sub]
    have hquarter : (x.significand + 1 / 2 : ℚ) * 2 ^ x.exponent =
        (4 * x.significand + 2) * 2 ^ (x.exponent - 2) := by
      rw [zpow_sub₀ (by norm_num)]
      ring
    have hcast : (n : ℚ) * (10 ^ k.toNat * 2 ^ (2 - x.exponent).toNat) ≤
        (4 * x.significand + 2) * 2 ^ (x.exponent - 2).toNat * 10 ^ (-k).toNat := by
      exact_mod_cast hhigh
    rw [hneg] at htwo
    push_cast at hten htwo
    rw [Decimal.value, hquarter, hten, htwo, mul_div_assoc', mul_div_assoc',
      div_le_div_iff₀ (by positivity) (by positivity)]
    linarith

theorem le_of_ite {even : Bool} {low value high : ℕ}
    (h : (if even then decide (low ≤ value) && decide (value ≤ high)
      else decide (low < value) && decide (value < high)) = true) :
    low ≤ value ∧ value ≤ high := by
  split at h
  · rwa [Bool.and_eq_true, decide_eq_true_eq, decide_eq_true_eq] at h
  · rw [Bool.and_eq_true, decide_eq_true_eq, decide_eq_true_eq] at h
    exact ⟨Nat.le_of_lt h.1, Nat.le_of_lt h.2⟩

theorem within_onGrid? (hx : 0 < x.significand) (h : x.onGrid? k = some d) : x.Within d := by
  unfold onGrid? at h
  dsimp only at h
  split at h
  · next hd hd' =>
    rw [Option.some.injEq] at h
    split at h
    · exact h ▸ within_of_bounds hx (le_of_ite hd).1 (le_of_ite hd).2
    · exact h ▸ within_of_bounds hx (le_of_ite hd').1 (le_of_ite hd').2
  · next hd _ =>
    rw [Option.some.injEq] at h
    exact h ▸ within_of_bounds hx (le_of_ite hd).1 (le_of_ite hd).2
  · next _ hd' =>
    rw [Option.some.injEq] at h
    exact h ▸ within_of_bounds hx (le_of_ite hd').1 (le_of_ite hd').2
  · cases h

theorem within_shortest (hx : 0 < x.significand) : x.shortest = ⟨0, 0⟩ ∨ x.Within x.shortest := by
  rw [shortest]
  split
  · next d hd =>
    right
    obtain ⟨n, -, hgrid⟩ := List.exists_of_findSome?_eq_some hd
    have hwithin := within_onGrid? hx hgrid
    by_cases hten : d.digits = 10
    · rw [if_pos hten]
      refine ⟨Nat.one_pos, le_of_eq_of_le ?_ hwithin.le⟩
      rw [Decimal.value, Decimal.value, hten, zpow_add₀ (by norm_num)]
      norm_num
      ring
    · rw [if_neg hten]
      exact hwithin
  · exact .inl rfl

end Binary64

end SelectiveDisclosure
