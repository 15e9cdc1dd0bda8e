import SelectiveDisclosure.Binary64.Rounding
import SelectiveDisclosure.Binary64.Shortest

/-!
# JSON numbers

A literal without fraction and exponent is an integer while it fits in 64 bits, signed or
unsigned; every other literal is a binary number, and so is `-0`.
-/

set_option autoImplicit false

namespace SelectiveDisclosure.Json

inductive Number where
  | integer (n : Int) (fits : -0x8000000000000000 ≤ n ∧ n < 0x10000000000000000)
  | binary (x : Binary64)
  deriving DecidableEq

namespace Number

def ofInt? (n : Int) : Option Number :=
  if h : -0x8000000000000000 ≤ n ∧ n < 0x10000000000000000 then some (.integer n h) else none

def toBinary? : Number → Option Binary64
  | .integer n _ => Binary64.ofInt? n
  | .binary x => some x

/-! ## Writing -/

def intChars (n : Int) : List Char :=
  (if n < 0 then ['-'] else []) ++ Nat.toDigits 10 n.natAbs

/-- Positional from `10^-5` up to `10^16`, always with a fraction; otherwise in scientific form,
the exponent with its sign. -/
def decimalChars (d : Decimal) : List Char :=
  let ds := Nat.toDigits 10 d.digits
  let order := d.exponent + ds.length - 1
  if -5 ≤ order ∧ order < 16 then
    if 0 ≤ d.exponent then ds ++ List.replicate d.exponent.toNat '0' ++ ['.', '0']
    else if 0 ≤ order then ds.take (order + 1).toNat ++ '.' :: ds.drop (order + 1).toNat
    else '0' :: '.' :: List.replicate (-order - 1).toNat '0' ++ ds
  else
    let fraction := match ds.drop 1 with
      | [] => []
      | r => '.' :: r
    let sign := if order < 0 then '-' else '+'
    ds.take 1 ++ fraction ++ 'e' :: sign :: Nat.toDigits 10 order.natAbs

def binaryChars (x : Binary64) : List Char :=
  (if x.negative then ['-'] else []) ++
    if x.isZero then ['0', '.', '0'] else decimalChars x.shortest

def chars : Number → List Char
  | .integer n _ => intChars n
  | .binary x => binaryChars x

/-! ## Reading -/

/-- The parts of a number as it is written: digits before the point, digits after it, and the
exponent, the latter two when they are there. -/
structure Literal where
  negative : Bool
  whole : List Char
  fraction : Option (List Char)
  exponent : Option Int

def splitDigits (s : List Char) : List Char × List Char :=
  s.span Char.isDigit

def digits? (s : List Char) : Option (List Char × List Char) :=
  match splitDigits s with
  | ([], _) => none
  | r => some r

def whole? : List Char → Option (List Char × List Char)
  | '0' :: s => if (s.head?.map Char.isDigit) = some true then none else some (['0'], s)
  | s => digits? s

def fraction? : List Char → Option (Option (List Char) × List Char)
  | '.' :: s => (digits? s).map fun (ds, s) => (some ds, s)
  | s => some (none, s)

def signed? : List Char → Option (Int × List Char)
  | '+' :: s => (digits? s).map fun (ds, s) => ((Nat.ofDigitChars 10 ds 0 : Int), s)
  | '-' :: s => (digits? s).map fun (ds, s) => (-(Nat.ofDigitChars 10 ds 0 : Int), s)
  | s => (digits? s).map fun (ds, s) => ((Nat.ofDigitChars 10 ds 0 : Int), s)

def exponent? : List Char → Option (Option Int × List Char)
  | 'e' :: s | 'E' :: s => (signed? s).map fun (e, s) => (some e, s)
  | s => some (none, s)

def literal? (s : List Char) : Option (Literal × List Char) := do
  let (negative, s) := match s with
    | '-' :: s => (true, s)
    | s => (false, s)
  let (whole, s) ← whole? s
  let (fraction, s) ← fraction? s
  let (exponent, s) ← exponent? s
  return (⟨negative, whole, fraction, exponent⟩, s)

/-- Takes digits into the significand while it stays below `2^64`, and counts the rest. -/
def significand : Nat → List Char → Nat × Nat
  | n, [] => (n, 0)
  | n, c :: r =>
    let m := 10 * n + (c.toNat - '0'.toNat)
    if m < 0x10000000000000000 then significand m r else (n, r.length + 1)

def descend : Nat → Binary64 → Option Binary64
  | 0, x => some x
  | k+1, x =>
    if x.isZero then some x
    else do descend k (← x.div? (← Binary64.powerOfTen? 308))

/-- The significand is rounded first and then multiplied or divided by powers of ten up to
`10^308`, each step rounded. -/
def scaled? (significand : Nat) (exponent : Int) : Option Binary64 := do
  let x ← Binary64.round? false significand 1
  if exponent.natAbs ≤ 308 then
    let p ← Binary64.powerOfTen? exponent.natAbs
    if 0 ≤ exponent then x.mul? p else x.div? p
  else if x.isZero then some x
  else if 0 ≤ exponent then none
  else
    let k := (exponent.natAbs - 1) / 308
    let x ← descend k x
    x.div? (← Binary64.powerOfTen? (exponent.natAbs - 308 * k))

namespace Literal

/-- The digits before the point that no longer fit raise the exponent; those after the point that
no longer fit are dropped. -/
def binary? (l : Literal) : Option Binary64 := do
  let (m, raised) := significand 0 l.whole
  let fraction := l.fraction.getD []
  let (m, dropped) := significand m fraction
  let lowered := fraction.length - dropped
  let x ← scaled? m (raised - lowered + l.exponent.getD 0)
  return if l.negative then x.neg else x

def number? (l : Literal) : Option Number :=
  let n := Nat.ofDigitChars 10 l.whole 0
  let plain := l.fraction.isNone && l.exponent.isNone
  if plain && (if l.negative then 0 < n && n ≤ 0x8000000000000000 else n < 0x10000000000000000) then
    ofInt? (if l.negative then -n else n)
  else l.binary?.map .binary

end Literal

def read? (s : List Char) : Option (Number × List Char) := do
  let (l, s) ← literal? s
  return (← l.number?, s)

end Number
end SelectiveDisclosure.Json
