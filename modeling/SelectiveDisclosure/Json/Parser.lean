import SelectiveDisclosure.Json.Value
import SelectiveDisclosure.Octets

/-!
# Reading JSON

The strict grammar, with at most 127 arrays and objects around any value. A value is read as it
is written, with its members in order and repeated names kept; `Value.parse?` then sorts it.
-/

set_option autoImplicit false

namespace SelectiveDisclosure.Json

def depthLimit : Nat := 127

def isBlank (c : Char) : Bool :=
  c == ' ' || c == '\n' || c == '\r' || c == '\t'

def skipBlanks (s : List Char) : List Char :=
  s.dropWhile isBlank

/-! ## Strings -/

def hexDigit? (c : Char) : Option Nat :=
  if '0' ≤ c ∧ c ≤ '9' then some (c.toNat - '0'.toNat)
  else if 'a' ≤ c ∧ c ≤ 'f' then some (c.toNat - 'a'.toNat + 10)
  else if 'A' ≤ c ∧ c ≤ 'F' then some (c.toNat - 'A'.toNat + 10)
  else none

def hex4? (a b c d : Char) : Option Nat := do
  return ((← hexDigit? a) * 16 + (← hexDigit? b)) * 256 + (← hexDigit? c) * 16 + (← hexDigit? d)

def plainEscape? (c : Char) : Option Char :=
  if c = '"' ∨ c = '\\' ∨ c = '/' then some c
  else if c = 'b' then some '\x08'
  else if c = 'f' then some '\x0c'
  else if c = 'n' then some '\n'
  else if c = 'r' then some '\r'
  else if c = 't' then some '\t'
  else none

def isHighSurrogate (n : Nat) : Bool := 0xd800 ≤ n && n < 0xdc00

def isLowSurrogate (n : Nat) : Bool := 0xdc00 ≤ n && n < 0xe000

/-- The rest of a string after its opening quote. A surrogate stands only in a pair. -/
def stringRest : List Char → Option (List Char × List Char)
  | [] => none
  | '"' :: s => some ([], s)
  | '\\' :: 'u' :: a :: b :: c :: d :: s => do
    let high ← hex4? a b c d
    if isHighSurrogate high then
      match s with
      | '\\' :: 'u' :: a :: b :: c :: d :: s =>
        let low ← hex4? a b c d
        if isLowSurrogate low then
          let (text, s) ← stringRest s
          return (Char.ofNat (0x10000 + (high - 0xd800) * 0x400 + (low - 0xdc00)) :: text, s)
        else none
      | _ => none
    else if isLowSurrogate high then none
    else
      let (text, s) ← stringRest s
      return (Char.ofNat high :: text, s)
  | '\\' :: e :: s => do
    let c ← plainEscape? e
    let (text, s) ← stringRest s
    return (c :: text, s)
  | c :: s =>
    if c = '\\' ∨ c.toNat < 32 then none
    else do
      let (text, s) ← stringRest s
      return (c :: text, s)

def quoted? : List Char → Option (String × List Char)
  | '"' :: s => do
    let (text, s) ← stringRest s
    return (String.ofList text, s)
  | _ => none

/-! ## Sequences -/

def items? {α : Type} (item : List Char → Option (α × List Char)) (close : Char) :
    Nat → List Char → Option (List α × List Char)
  | 0, _ => none
  | k+1, s => do
    let (a, s) ← item s
    match skipBlanks s with
    | [] => none
    | c :: s =>
      if c = ',' then
        let (as, s) ← items? item close k s
        return (a :: as, s)
      else if c = close then some ([a], s)
      else none

/-- No item takes less than one character, so the length of the text bounds their number. -/
def sequence? {α : Type} (item : List Char → Option (α × List Char)) (close : Char)
    (s : List Char) : Option (List α × List Char) :=
  match skipBlanks s with
  | [] => none
  | c :: r => if c = close then some ([], r) else items? item close s.length s

def member? {α : Type} (value : List Char → Option (α × List Char)) (s : List Char) :
    Option ((String × α) × List Char) := do
  let (name, s) ← quoted? (skipBlanks s)
  match skipBlanks s with
  | ':' :: s =>
    let (v, s) ← value s
    return ((name, v), s)
  | _ => none

/-! ## Values -/

namespace Value

def scalar? : List Char → Option (Value × List Char)
  | 'n' :: 'u' :: 'l' :: 'l' :: s => some (.null, s)
  | 't' :: 'r' :: 'u' :: 'e' :: s => some (.bool true, s)
  | 'f' :: 'a' :: 'l' :: 's' :: 'e' :: s => some (.bool false, s)
  | '"' :: s => do
    let (text, s) ← quoted? ('"' :: s)
    return (.string text, s)
  | s => do
    let (n, s) ← Number.read? s
    return (.number n, s)

/-- A value with at most the given number of arrays and objects around each of its parts. -/
def within? : Nat → List Char → Option (Value × List Char)
  | 0, s => scalar? (skipBlanks s)
  | d+1, s =>
    match skipBlanks s with
    | '[' :: s => do
      let (items, s) ← sequence? (within? d) ']' s
      return (.array items, s)
    | '\x7b' :: s => do
      let (members, s) ← sequence? (member? (within? d)) '\x7d' s
      return (.object members, s)
    | s => scalar? s

def read? (s : String) : Option Value := do
  let (v, rest) ← within? depthLimit s.toList
  if (skipBlanks rest).isEmpty then some v else none

def parse? (s : String) : Option Value :=
  (read? s).map sorted

def readOctets? (bs : Octets) : Option Value :=
  (Octets.text? bs).bind read?

def parseOctets? (bs : Octets) : Option Value :=
  (Octets.text? bs).bind parse?

end Value
end SelectiveDisclosure.Json
