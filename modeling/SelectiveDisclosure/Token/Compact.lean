import SelectiveDisclosure.Disclosure
import SelectiveDisclosure.Jws.Compact

/-!
# The compact forms of tokens

A token is a JWS and any number of disclosures, each of these with a tilde behind it. In a
presentation one more JWS may follow the last tilde, which binds it to the key of its holder.
-/

set_option autoImplicit false

namespace SelectiveDisclosure

def tilde : UInt8 := 126

/-! ## Tokens -/

namespace Token

/-- Every disclosure has at least one symbol and a tilde; `segment` counts the symbols so far. -/
def areDisclosures (segment : Nat) : Octets → Bool
  | [] => segment == 0
  | b :: r =>
    if b = tilde then segment != 0 && areDisclosures 0 r
    else Base64Url.isSymbol b && areDisclosures (segment + 1) r

def head (bs : Octets) : Octets :=
  bs.takeWhile (· != tilde)

def isCompact (bs : Octets) : Bool :=
  bs.contains tilde && Jws.isCompact (head bs) && areDisclosures 0 (bs.drop ((head bs).length + 1))

/-- The octets before each tilde, from the one before it on. -/
def terminated : Octets → List Octets
  | [] => []
  | b :: r =>
    if b = tilde then [] :: terminated r
    else
      match terminated r with
      | [] => []
      | s :: ss => (b :: s) :: ss

end Token

structure Token where
  octets : Octets
  valid : Token.isCompact octets = true
  deriving DecidableEq

structure Parts where
  jwt : Jws
  disclosures : List Octets
  keyBinding : Option Jws
  deriving DecidableEq

namespace Parts

def withTildes (segments : List Octets) : Octets :=
  segments.flatMap fun s => s ++ [tilde]

def octets (p : Parts) : Octets :=
  p.jwt.octets ++ tilde :: withTildes p.disclosures ++
    match p.keyBinding with
    | some jwt => jwt.octets
    | none => []

end Parts

namespace Token

def ofOctets? (bs : Octets) : Option Token :=
  if h : isCompact bs = true then some ⟨bs, h⟩ else none

def text (t : Token) : String :=
  Octets.ascii t.octets

theorem isCompact_head {bs : Octets} (h : isCompact bs = true) :
    Jws.isCompact (head bs) = true := by
  simp only [isCompact, Bool.and_eq_true] at h
  exact h.1.2

def jwt (t : Token) : Jws :=
  ⟨head t.octets, isCompact_head t.valid⟩

def disclosures (t : Token) : List Octets :=
  terminated (t.octets.drop ((head t.octets).length + 1))

def parts (t : Token) : Parts :=
  ⟨t.jwt, t.disclosures, none⟩

end Token

/-! ## Presentations -/

namespace Presentation

def tail (bs : Octets) : Octets :=
  (bs.reverse.takeWhile (· != tilde)).reverse

def front (bs : Octets) : Octets :=
  bs.take (bs.length - (tail bs).length)

def isCompact (bs : Octets) : Bool :=
  bs.contains tilde && Token.isCompact (front bs) && ((tail bs).isEmpty || Jws.isCompact (tail bs))

end Presentation

structure Presentation where
  octets : Octets
  valid : Presentation.isCompact octets = true
  deriving DecidableEq

namespace Presentation

def ofOctets? (bs : Octets) : Option Presentation :=
  if h : isCompact bs = true then some ⟨bs, h⟩ else none

def text (p : Presentation) : String :=
  Octets.ascii p.octets

theorem isCompact_front {bs : Octets} (h : isCompact bs = true) :
    Token.isCompact (front bs) = true := by
  simp only [isCompact, Bool.and_eq_true] at h
  exact h.1.2

theorem isCompact_tail {bs : Octets} (h : isCompact bs = true) (ht : tail bs ≠ []) :
    Jws.isCompact (tail bs) = true := by
  simp only [isCompact, Bool.and_eq_true, Bool.or_eq_true, List.isEmpty_iff] at h
  exact h.2.resolve_left ht

def token (p : Presentation) : Token :=
  ⟨front p.octets, isCompact_front p.valid⟩

def keyBinding (p : Presentation) : Option Jws :=
  if h : tail p.octets = [] then none else some ⟨tail p.octets, isCompact_tail p.valid h⟩

def parts (p : Presentation) : Parts :=
  { p.token.parts with keyBinding := p.keyBinding }

end Presentation

def invalidTokenMessage (text : String) : String :=
  s!"invalid SD-JWT: `{text}`"

end SelectiveDisclosure
