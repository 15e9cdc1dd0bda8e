import SelectiveDisclosure.Octets

/-!
# Base64 with the alphabet for addresses, without padding

Three octets become four symbols; one or two octets left over become two or three. Decoding takes
exactly what encoding writes: no padding, no foreign symbol, no stray bit in the last symbol.
-/

set_option autoImplicit false

namespace SelectiveDisclosure.Base64Url

def symbol (n : Nat) : UInt8 :=
  if n < 26 then UInt8.ofNat (65 + n)
  else if n < 52 then UInt8.ofNat (71 + n)
  else if n < 62 then UInt8.ofNat (n - 4)
  else if n = 62 then 45
  else 95

def value? (b : UInt8) : Option Nat :=
  let n := b.toNat
  if 65 ≤ n ∧ n ≤ 90 then some (n - 65)
  else if 97 ≤ n ∧ n ≤ 122 then some (n - 71)
  else if 48 ≤ n ∧ n ≤ 57 then some (n + 4)
  else if n = 45 then some 62
  else if n = 95 then some 63
  else none

def isSymbol (b : UInt8) : Bool :=
  (value? b).isSome

def padding : UInt8 := 61

def encode : Octets → Octets
  | [] => []
  | [a] => [symbol (a.toNat / 4), symbol (a.toNat % 4 * 16)]
  | [a, b] =>
    [symbol (a.toNat / 4), symbol (a.toNat % 4 * 16 + b.toNat / 16), symbol (b.toNat % 16 * 4)]
  | a :: b :: c :: r =>
    symbol (a.toNat / 4) :: symbol (a.toNat % 4 * 16 + b.toNat / 16) ::
      symbol (b.toNat % 16 * 4 + c.toNat / 64) :: symbol (c.toNat % 64) :: encode r

def encodeText (bs : Octets) : String :=
  Octets.ascii (encode bs)

inductive DecodeError where
  | foreignSymbol (symbol : UInt8) (offset : Nat)
  | length (n : Nat)
  | lastSymbol (symbol : UInt8) (offset : Nat)
  | padding
  deriving DecidableEq, Repr

namespace DecodeError

def message : DecodeError → String
  | .foreignSymbol b i => s!"Invalid symbol {b.toNat}, offset {i}."
  | .length n => s!"Invalid input length: {n}"
  | .lastSymbol b i => s!"Invalid last symbol {b.toNat}, offset {i}."
  | .padding => "Invalid padding"

end DecodeError

def valueAt (b : UInt8) (offset : Nat) : Except DecodeError Nat :=
  match value? b with
  | some n => .ok n
  | none => .error (.foreignSymbol b offset)

def first (x y : Nat) : UInt8 := UInt8.ofNat (x * 4 + y / 16)

def second (y z : Nat) : UInt8 := UInt8.ofNat (y % 16 * 16 + z / 4)

def third (z w : Nat) : UInt8 := UInt8.ofNat (z % 4 * 64 + w)

/-- At most four symbols with nothing after them. -/
def decodeLast (offset : Nat) : Octets → Except DecodeError Octets
  | [] => .ok []
  | [a] => do
    let _ ← valueAt a offset
    .error (.length (offset + 1))
  | [a, b] => do
    let x ← valueAt a offset
    let y ← valueAt b (offset + 1)
    if y % 16 = 0 then .ok [first x y] else .error (.lastSymbol b (offset + 1))
  | [a, b, c] => do
    let x ← valueAt a offset
    let y ← valueAt b (offset + 1)
    if c = padding then .error .padding
    else do
      let z ← valueAt c (offset + 2)
      if z % 4 = 0 then .ok [first x y, second y z] else .error (.lastSymbol c (offset + 2))
  | a :: b :: c :: d :: _ => do
    let x ← valueAt a offset
    let y ← valueAt b (offset + 1)
    if c = padding then
      .error (if d = padding then .padding else .foreignSymbol padding (offset + 2))
    else do
      let z ← valueAt c (offset + 2)
      if d = padding then .error .padding
      else do
        let w ← valueAt d (offset + 3)
        .ok [first x y, second y z, third z w]

def decodeFrom (offset : Nat) : Octets → Except DecodeError Octets
  | a :: b :: c :: d :: e :: r => do
    let x ← valueAt a offset
    let y ← valueAt b (offset + 1)
    let z ← valueAt c (offset + 2)
    let w ← valueAt d (offset + 3)
    let rest ← decodeFrom (offset + 4) (e :: r)
    return first x y :: second y z :: third z w :: rest
  | last => decodeLast offset last

/-- A foreign symbol that would stand alone in the last group is reported before all others. -/
def decode (bs : Octets) : Except DecodeError Octets :=
  match bs.getLast? with
  | some b =>
    if bs.length % 4 = 1 ∧ b ≠ padding ∧ isSymbol b = false then
      .error (.foreignSymbol b (bs.length - 1))
    else decodeFrom 0 bs
  | none => .ok []

/-- Every symbol is in the alphabet; the number of symbols may still be wrong. -/
def isText (bs : Octets) : Bool :=
  bs.all isSymbol

def stripPadding (bs : Octets) : Octets :=
  (bs.reverse.dropWhile (· == padding)).reverse

end SelectiveDisclosure.Base64Url
