import SelectiveDisclosure.Json.Members
import SelectiveDisclosure.Json.Parser

/-!
# Members by their raw text

Splits the text of an object into the names of its members and the raw octets of their values.
A value is only passed over: how deep it is, how large its numbers are and which characters its
texts encode does not matter here, so a reader can ignore members that it does not know.
-/

set_option autoImplicit false

namespace SelectiveDisclosure.Json.Raw

def octet (c : Char) : UInt8 := UInt8.ofNat c.toNat

def isBlank (b : UInt8) : Bool :=
  b == octet ' ' || b == octet '\n' || b == octet '\r' || b == octet '\t'

def skipBlanks (s : Octets) : Octets :=
  s.dropWhile isBlank

def isDigit (b : UInt8) : Bool :=
  octet '0' ≤ b && b ≤ octet '9'

def isHexDigit (b : UInt8) : Bool :=
  isDigit b || (octet 'a' ≤ b && b ≤ octet 'f') || (octet 'A' ≤ b && b ≤ octet 'F')

def isPlainEscape (b : UInt8) : Bool :=
  ['"', '\\', '/', 'b', 'f', 'n', 'r', 't'].any fun c => octet c == b

def skipText : Octets → Option Octets
  | [] => none
  | b :: s =>
    if b = octet '"' then some s
    else if b = octet '\\' then
      match s with
      | [] => none
      | e :: s =>
        if e = octet 'u' then
          match s with
          | h1 :: h2 :: h3 :: h4 :: s =>
            if [h1, h2, h3, h4].all isHexDigit then skipText s else none
          | _ => none
        else if isPlainEscape e then skipText s
        else none
    else if b < octet ' ' then none
    else skipText s

def skipDigits (s : Octets) : Option Octets :=
  if (s.takeWhile isDigit).isEmpty then none else some (s.dropWhile isDigit)

def skipWhole : Octets → Option Octets
  | [] => none
  | b :: s =>
    if b = octet '0' then if (s.head?.map isDigit) = some true then none else some s
    else skipDigits (b :: s)

def skipFraction : Octets → Option Octets
  | [] => some []
  | b :: s => if b = octet '.' then skipDigits s else some (b :: s)

def skipExponent : Octets → Option Octets
  | [] => some []
  | b :: s =>
    if b = octet 'e' ∨ b = octet 'E' then
      match s with
      | [] => none
      | c :: r => if c = octet '+' ∨ c = octet '-' then skipDigits r else skipDigits (c :: r)
    else some (b :: s)

def skipNumber (s : Octets) : Option Octets := do
  let s := match s with
    | [] => []
    | b :: r => if b = octet '-' then r else b :: r
  skipExponent (← skipFraction (← skipWhole s))

def skipWord (word : List Char) (s : Octets) : Option Octets :=
  if (word.map octet).isPrefixOf s then some (s.drop word.length) else none

def items? {α : Type} (item : Octets → Option (α × Octets)) (close : UInt8) :
    Nat → Octets → Option (List α × Octets)
  | 0, _ => none
  | k+1, s => do
    let (a, s) ← item s
    match skipBlanks s with
    | [] => none
    | b :: s =>
      if b = octet ',' then
        let (as, s) ← items? item close k s
        return (a :: as, s)
      else if b = close then some ([a], s)
      else none

def sequence? {α : Type} (item : Octets → Option (α × Octets)) (close : UInt8) (s : Octets) :
    Option (List α × Octets) :=
  match skipBlanks s with
  | [] => none
  | b :: r => if b = close then some ([], r) else items? item close s.length s

def name? (s : Octets) : Option (Octets × Octets) :=
  match skipBlanks s with
  | [] => none
  | b :: r =>
    if b = octet '"' then
      (skipText r).map fun rest => (b :: r.take (r.length - rest.length), rest)
    else none

def member? {α : Type} (value : Octets → Option (α × Octets)) (s : Octets) :
    Option ((Octets × α) × Octets) := do
  let (name, s) ← name? s
  match skipBlanks s with
  | [] => none
  | b :: s =>
    if b = octet ':' then
      let (v, s) ← value s
      return ((name, v), s)
    else none

def skipWithin : Nat → Octets → Option Octets
  | 0, _ => none
  | d+1, s =>
    let item (s : Octets) : Option (Unit × Octets) := (skipWithin d s).map fun r => ((), r)
    match skipBlanks s with
    | [] => none
    | b :: r =>
      if b = octet '[' then (sequence? item (octet ']') r).map Prod.snd
      else if b = octet '\x7b' then (sequence? (member? item) (octet '\x7d') r).map Prod.snd
      else if b = octet '"' then skipText r
      else if b = octet 'n' then skipWord ['n', 'u', 'l', 'l'] (b :: r)
      else if b = octet 't' then skipWord ['t', 'r', 'u', 'e'] (b :: r)
      else if b = octet 'f' then skipWord ['f', 'a', 'l', 's', 'e'] (b :: r)
      else skipNumber (b :: r)

/-- The raw text of a value. No value is deeper than its text is long. -/
def value? (s : Octets) : Option (Octets × Octets) :=
  (skipWithin s.length s).map fun rest => (s.take (s.length - rest.length), rest)

def readName? (m : Octets × Octets) : Option (String × Octets) := do
  let name ← (← Value.readOctets? m.1).string?
  return (name, m.2)

def members? (s : Octets) : Option (List (String × Octets)) := do
  match skipBlanks s with
  | [] => none
  | b :: r =>
    if b = octet '\x7b' then
      let (ms, rest) ← sequence? (member? value?) (octet '\x7d') r
      if (skipBlanks rest).isEmpty then ms.mapM readName? else none
    else none

end SelectiveDisclosure.Json.Raw
