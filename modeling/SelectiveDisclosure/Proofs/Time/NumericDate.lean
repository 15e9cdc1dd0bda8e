import Mathlib.Algebra.Group.Nat.Defs
import SelectiveDisclosure.Time.NumericDate

/-!
# Dates read back

A whole number below `2^53` is a binary number exactly, and so are all seconds of instants. Their
dates are read back from JSON as they were written.
-/

set_option autoImplicit false

namespace SelectiveDisclosure

namespace Binary64

theorem binaryOrder_one {n : Nat} (h : n ≠ 0) : binaryOrder n 1 = n.log2 := by
  have hle := Nat.log2_self_le h
  have hone : Nat.log2 1 = 0 := by decide
  have hneg : (-(n.log2 : Int)).toNat = 0 := by omega
  simp only [binaryOrder, hone, Int.natCast_zero, Int.sub_zero, Int.toNat_natCast, hneg,
    Nat.pow_eq, Nat.pow_zero, Nat.one_mul, Nat.mul_one, if_pos hle]

theorem nearestEven_one (n : Nat) : nearestEven n 1 = n := by
  simp [nearestEven, Nat.mod_one]

theorem normal_shifted {n : Nat} (h : n ≠ 0) (hn : n < 0x20000000000000) :
    Normal (n * 2 ^ (52 - n.log2)) (n.log2 - 52) ∧ n.log2 ≤ 52 := by
  have hle := Nat.log2_self_le h
  have hlt := Nat.lt_log2_self (n := n)
  have hlog : n.log2 ≤ 52 := by
    have hlog := (Nat.log2_lt h (k := 53)).2 hn
    omega
  have hpow : 2 ^ n.log2 * 2 ^ (52 - n.log2) = 2 ^ 52 := by
    rw [← Nat.pow_add]
    congr 1
    omega
  have hpos : 0 < 2 ^ (52 - n.log2) := Nat.two_pow_pos _
  refine ⟨⟨?_, by omega, by omega, .inr ?_⟩, hlog⟩
  · have hmul := Nat.mul_lt_mul_of_pos_right hlt hpos
    rw [Nat.pow_succ, Nat.mul_right_comm, hpow] at hmul
    exact hmul
  · have hmul := Nat.mul_le_mul_right (2 ^ (52 - n.log2)) hle
    rw [hpow] at hmul
    exact hmul

theorem ofInt?_of_natAbs_lt {n : Int} (hn : n.natAbs < 0x20000000000000) :
    ∃ x, ofInt? n = some x ∧ x.negative = decide (n < 0) ∧
      x.numerator = n.natAbs * x.denominator := by
  by_cases h : n.natAbs = 0
  · have hzero : n = 0 := by omega
    subst hzero
    exact ⟨zero false, rfl, rfl, by simp [zero, numerator]⟩
  · obtain ⟨hnormal, hlog⟩ := normal_shifted h hn
    have hexponent : max (-1074) ((n.natAbs.log2 : Int) - 52) = (n.natAbs.log2 : Int) - 52 := by
      omega
    have hdown : (-((n.natAbs.log2 : Int) - 52)).toNat = 52 - n.natAbs.log2 := by omega
    have hup : ((n.natAbs.log2 : Int) - 52).toNat = 0 := by omega
    have hbound : n.natAbs * 2 ^ (52 - n.natAbs.log2) ≠ significandBound :=
      Nat.ne_of_lt hnormal.1
    refine ⟨⟨decide (n < 0), _, _, hnormal⟩, ?_, rfl, ?_⟩
    · simp only [ofInt?, round?, if_neg h, binaryOrder_one h, hexponent, hdown, hup, Nat.pow_eq,
        Nat.pow_zero, Nat.mul_one, nearestEven_one, if_neg hbound, normal?, dif_pos hnormal]
    · simp only [numerator, denominator, hdown, hup, Nat.pow_eq, Nat.pow_zero, Nat.mul_one]

def signedNumerator (x : Binary64) : Int :=
  if x.negative then -x.numerator else x.numerator

theorem signedNumerator_eq {x : Binary64} {n : Int} (hsign : x.negative = decide (n < 0))
    (hx : x.numerator = n.natAbs * x.denominator) : x.signedNumerator = n * x.denominator := by
  rw [signedNumerator, hx, hsign, Int.natCast_mul]
  by_cases hn : n < 0
  · rw [if_pos (decide_eq_true hn), ← Int.neg_mul]
    congr 1
    omega
  · rw [if_neg (by rwa [decide_eq_true_iff])]
    congr 1
    omega

theorem floor_eq (x : Binary64) : x.floor = Int.fdiv x.signedNumerator x.denominator := rfl

end Binary64

namespace NumericDate

theorem ofJson?_toJson {d : NumericDate} (h : d.toInstant?.isSome = true) :
    ofJson? d.toJson = some d := by
  have hrange : Instant.InRange d.seconds := by
    rw [toInstant?, Instant.ofSeconds?, Instant.ofParts?] at h
    split at h
    · next hparts => exact hparts.1
    · cases h
  have hsmall : d.seconds.natAbs < 0x20000000000000 := by
    simp only [Instant.InRange, Instant.leastSecond, Instant.greatestSecond] at hrange
    omega
  obtain ⟨x, hx, hsign, hnum⟩ := Binary64.ofInt?_of_natAbs_lt hsmall
  have hlt : x.numerator < 0x8000000000000000 * x.denominator := by
    rw [hnum]
    exact Nat.mul_lt_mul_of_pos_right (by omega) (Nat.two_pow_pos _)
  have hfloor : x.floor = d.seconds := by
    have hne : (x.denominator : Int) ≠ 0 := by
      exact_mod_cast Nat.ne_of_gt (Nat.two_pow_pos _)
    rw [x.floor_eq, Binary64.signedNumerator_eq hsign hnum, Int.mul_fdiv_cancel _ hne]
  rw [toJson, ofJson?, toNumber, Json.Number.toBinary?, hx, Option.bind_some, ofBinary?,
    if_pos hlt, hfloor, ofSeconds?, dif_pos d.fits]

end NumericDate

end SelectiveDisclosure
