import SelectiveDisclosure.Binary64.Basic

/-!
# Rounding a quotient to the nearest binary number

A half goes to the even significand. A quotient past the greatest finite number has no nearest
one.
-/

set_option autoImplicit false

namespace SelectiveDisclosure.Binary64

/-- `⌊log₂ (num / den)⌋` for positive `num` and `den`. -/
def binaryOrder (num den : Nat) : Int :=
  let estimate : Int := num.log2 - den.log2
  if den * Nat.pow 2 estimate.toNat ≤ num * Nat.pow 2 (-estimate).toNat then estimate
  else estimate - 1

def nearestEven (num den : Nat) : Nat :=
  let q := num / den
  let twice := 2 * (num % den)
  if den < twice ∨ (twice = den ∧ q % 2 = 1) then q + 1 else q

/-- The number nearest to `± num / den`, unless it lies past the greatest one. -/
def round? (negative : Bool) (num den : Nat) : Option Binary64 :=
  if num = 0 then some (zero negative)
  else
    let e := max (-1074) (binaryOrder num den - 52)
    let s := nearestEven (num * Nat.pow 2 (-e).toNat) (den * Nat.pow 2 e.toNat)
    if s = significandBound then normal? negative hiddenBit (e + 1) else normal? negative s e

def ofInt? (n : Int) : Option Binary64 :=
  round? (n < 0) n.natAbs 1

def mul? (x y : Binary64) : Option Binary64 :=
  round? (x.negative != y.negative) (x.numerator * y.numerator) (x.denominator * y.denominator)

def div? (x y : Binary64) : Option Binary64 :=
  round? (x.negative != y.negative) (x.numerator * y.denominator) (x.denominator * y.numerator)

def powerOfTen? (k : Nat) : Option Binary64 :=
  round? false (Nat.pow 10 k) 1

end SelectiveDisclosure.Binary64
