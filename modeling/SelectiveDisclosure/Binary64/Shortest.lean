import SelectiveDisclosure.Binary64.Basic

/-!
# The shortest decimal that reads back

Every decimal strictly between the two midpoints beside a number rounds to that number, and the
midpoints themselves do when its significand is even. Among such decimals the shortest has the
fewest digits; of two with equally many the nearer is taken, of two equally near the even one.
-/

set_option autoImplicit false

namespace SelectiveDisclosure

/-- `digits · 10 ^ exponent`. -/
structure Decimal where
  digits : Nat
  exponent : Int
  deriving DecidableEq, Repr

namespace Binary64

def decimalOrder (num den : Nat) : Int :=
  if den ≤ num then (Nat.toDigits 10 (num / den)).length - 1
  else
    let n := (Nat.toDigits 10 (den / num)).length
    if den = num * Nat.pow 10 (n - 1) then -(n - 1 : Nat) else -n

/-- The distance from a number down to the lower midpoint, in quarters of the last place. -/
def quartersBelow (x : Binary64) : Nat :=
  if x.significand = hiddenBit ∧ x.exponent ≠ -1074 then 1 else 2

/-- The better of the two neighbours of the number among the multiples of `10 ^ k`, when one of
them reads back. -/
def onGrid? (x : Binary64) (k : Int) : Option Decimal :=
  let place := Nat.pow 10 k.toNat * Nat.pow 2 (2 - x.exponent).toNat
  let scaled (quarters : Nat) :=
    quarters * Nat.pow 2 (x.exponent - 2).toNat * Nat.pow 10 (-k).toNat
  let value := scaled (4 * x.significand)
  let low := scaled (4 * x.significand - x.quartersBelow)
  let high := scaled (4 * x.significand + 2)
  let even := x.significand % 2 == 0
  let readsBack (d : Nat) : Bool :=
    if even then low ≤ d * place && d * place ≤ high else low < d * place && d * place < high
  let d := value / place
  let below := value - d * place
  let above := (d + 1) * place - value
  let preferLower := below < above || (below == above && d % 2 == 0)
  match readsBack d, readsBack (d + 1) with
  | true, true => some (if preferLower then ⟨d, k⟩ else ⟨d + 1, k⟩)
  | true, false => some ⟨d, k⟩
  | false, true => some ⟨d + 1, k⟩
  | false, false => none

/-- The shortest decimal of the magnitude; seventeen digits are always enough. A ten on the grid
of one digit is the next power of ten. -/
def shortest (x : Binary64) : Decimal :=
  let order := decimalOrder x.numerator x.denominator
  match (List.range 17).findSome? fun (n : Nat) => x.onGrid? (order - n) with
  | some d => if d.digits = 10 then ⟨1, d.exponent + 1⟩ else d
  | none => ⟨0, 0⟩

end Binary64
end SelectiveDisclosure
