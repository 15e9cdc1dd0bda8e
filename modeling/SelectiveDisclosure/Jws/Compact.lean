import SelectiveDisclosure.Jws.Header

/-!
# The compact form of a JWS

Three base64 texts with points between them: the header, the payload, which may be empty, and the
signature. The first two with their point are what is signed.
-/

set_option autoImplicit false

namespace SelectiveDisclosure

namespace Jws

def point : UInt8 := 46

/-- Counts points and the octets since the last one. The counts are idealised, they have no bound:
counts of 32 bits with a sign give the same answer for every text of less than `2 ^ 31` octets, and
may overflow on a longer one. -/
def scan (points segment : Nat) : Octets → Bool
  | [] => points == 2 && segment != 0
  | b :: r =>
    if b = point then
      if points = 0 ∧ segment = 0 then false else scan (points + 1) 0 r
    else if Base64Url.isSymbol b then scan points (segment + 1) r
    else false

/-- The octets from `start` up to `stop`, or to the end if that comes first, are a JWS. -/
def isCompactRange (bs : Octets) (start stop : Nat) : Bool :=
  scan 0 0 ((bs.take stop).drop start)

def isCompact (bs : Octets) : Bool :=
  isCompactRange bs 0 bs.length

def invalidMessage : String := "invalid compact JWS"

end Jws

structure Jws where
  octets : Octets
  valid : Jws.isCompact octets = true
  deriving DecidableEq

namespace Jws

def ofOctets? (bs : Octets) : Option Jws :=
  if h : isCompact bs = true then some ⟨bs, h⟩ else none

def assemble? (signingOctets signature : Octets) : Option Jws :=
  ofOctets? (signingOctets ++ point :: Base64Url.encode signature)

def text (j : Jws) : String :=
  Octets.ascii j.octets

/-! ## Parts -/

def header (j : Jws) : Octets :=
  j.octets.takeWhile (· != point)

def signature (j : Jws) : Octets :=
  (j.octets.reverse.takeWhile (· != point)).reverse

def signingOctets (j : Jws) : Octets :=
  j.octets.take (j.octets.length - j.signature.length - 1)

def payload (j : Jws) : Octets :=
  j.signingOctets.drop (j.header.length + 1)

/-! ## Decoding -/

inductive DecodeError where
  | header (e : HeaderError)
  | payload (e : Base64Url.DecodeError)
  | signature (e : Base64Url.DecodeError)
  deriving DecidableEq

namespace DecodeError

def message : DecodeError → String
  | .header e => "invalid header: " ++ e.message
  | .payload e => "invalid payload: " ++ e.message
  | .signature e => "invalid signature: " ++ e.message

end DecodeError

structure Decoded (α : Type) where
  signingOctets : Octets
  header : Header
  payload : α
  signature : Octets

namespace Decoded

def withPayload {α β : Type} (d : Decoded α) (payload : β) : Decoded β :=
  ⟨d.signingOctets, d.header, payload, d.signature⟩

def reencode? {α : Type} (d : Decoded α) : Option Jws :=
  assemble? d.signingOctets d.signature

end Decoded

def decode (j : Jws) : Except DecodeError (Decoded Octets) := do
  let header ← (Header.decode j.header).mapError .header
  let payload ← (Base64Url.decode j.payload).mapError .payload
  let signature ← (Base64Url.decode j.signature).mapError .signature
  return ⟨j.signingOctets, header, payload, signature⟩

end Jws
end SelectiveDisclosure
