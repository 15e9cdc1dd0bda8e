/-!
# Finite binary numbers of sixty-four bits

A finite double-precision number is `± significand · 2 ^ exponent` in its one normal form. Both
zeros are kept apart by the sign. Arithmetic is done on the exact quotient and rounded once.
-/

set_option autoImplicit false

namespace SelectiveDisclosure

namespace Binary64

/-- The leading bit of a significand of full length, `2^52`. -/
def hiddenBit : Nat := 0x10000000000000

def significandBound : Nat := 0x20000000000000

end Binary64

/-- The significand is as long as it can be: 53 bits, or fewer at the least exponent. -/
def Binary64.Normal (significand : Nat) (exponent : Int) : Prop :=
  significand < significandBound ∧ -1074 ≤ exponent ∧ exponent ≤ 971 ∧
    (exponent = -1074 ∨ hiddenBit ≤ significand)

instance (significand : Nat) (exponent : Int) :
    Decidable (Binary64.Normal significand exponent) :=
  inferInstanceAs (Decidable (_ ∧ _))

structure Binary64 where
  negative : Bool
  significand : Nat
  exponent : Int
  normal : Binary64.Normal significand exponent
  deriving DecidableEq, Repr

namespace Binary64

def zero (negative : Bool) : Binary64 :=
  ⟨negative, 0, -1074, by decide⟩

instance : Inhabited Binary64 := ⟨zero false⟩

def normal? (negative : Bool) (significand : Nat) (exponent : Int) : Option Binary64 :=
  if h : Normal significand exponent then some ⟨negative, significand, exponent, h⟩ else none

def neg (x : Binary64) : Binary64 :=
  { x with negative := !x.negative }

def isZero (x : Binary64) : Bool :=
  x.significand == 0

def numerator (x : Binary64) : Nat :=
  x.significand * Nat.pow 2 x.exponent.toNat

def denominator (x : Binary64) : Nat :=
  Nat.pow 2 (-x.exponent).toNat

def floor (x : Binary64) : Int :=
  let n : Int := if x.negative then -x.numerator else x.numerator
  Int.fdiv n x.denominator

/-- Reads the bits of the interchange format; infinities and the other non-numbers give `none`. -/
def ofBits (bits : UInt64) : Option Binary64 :=
  let n := bits.toNat
  let fraction : Nat := n % hiddenBit
  let biased : Nat := n / hiddenBit % 2048
  let negative := n / 0x8000000000000000 == 1
  if biased = 2047 then none
  else if biased = 0 then normal? negative fraction (-1074)
  else normal? negative (hiddenBit + fraction) ((biased : Int) - 1075)

end Binary64
end SelectiveDisclosure
