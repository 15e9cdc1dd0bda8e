import SelectiveDisclosure.Token.Compact

/-!
# Payloads of tokens

A payload is a claims object, with digests in place of concealed values, and the algorithm of
these digests.
-/

set_option autoImplicit false

namespace SelectiveDisclosure

structure Payload where
  algorithm : Option HashAlgorithm
  claims : Json.Members

namespace Token

inductive DecodeError where
  | jws (e : Jws.DecodeError)
  | payload
  | algorithmNotText
  | unsupportedAlgorithm (name : String)
  | malformedDisclosure
  | reservedName (name : String)
  deriving DecidableEq

namespace DecodeError

def message : DecodeError → String
  | .jws e => "invalid issuer-signed JWT: " ++ e.message
  | .payload => "invalid JWT payload: " ++ Jws.jsonErrorMessage
  | .algorithmNotText => "`_sd_alg` claim value is not a string"
  | .unsupportedAlgorithm name => s!"unsupported hash algorithm `{name}`"
  | .malformedDisclosure => "malformed disclosure"
  | .reservedName name => s!"disclosure uses the reserved claim name `{name}`"

def ofDisclosure : Disclosure.DecodeError → DecodeError
  | .malformed => .malformedDisclosure
  | .reservedName name => .reservedName name

end DecodeError

structure Decoded where
  jwt : Jws.Decoded Payload
  disclosures : List Disclosure

end Token

namespace Payload

def algorithmName : String := "_sd_alg"

def algorithmOfName (name : String) : Except Token.DecodeError HashAlgorithm :=
  match HashAlgorithm.ofName? name with
  | some a => .ok a
  | none => .error (.unsupportedAlgorithm name)

def ofClaims (claims : Json.Members) : Except Token.DecodeError Payload :=
  match Json.Members.get? claims algorithmName with
  | none => .ok ⟨none, claims⟩
  | some (.string name) => do
    let a ← algorithmOfName name
    return ⟨some a, Json.Members.erase claims algorithmName⟩
  | some _ => .error .algorithmNotText

/-- The algorithm is written before the claims. -/
def written (p : Payload) : Json.Value :=
  .object (Json.Members.optional algorithmName HashAlgorithm.toJson p.algorithm ++ p.claims)

def ofOctets (bs : Octets) : Except Token.DecodeError Payload :=
  match Json.Value.parseOctets? bs with
  | some (.object claims) => ofClaims claims
  | _ => .error .payload

end Payload

namespace Parts

def decodeDisclosures : List Octets → Except Token.DecodeError (List Disclosure)
  | [] => .ok []
  | bs :: r => do
    let d ← (Disclosure.decode bs).mapError .ofDisclosure
    let ds ← decodeDisclosures r
    return d :: ds

def decode (p : Parts) : Except Token.DecodeError Token.Decoded := do
  let jws ← p.jwt.decode.mapError .jws
  let payload ← Payload.ofOctets jws.payload
  let disclosures ← decodeDisclosures p.disclosures
  return ⟨jws.withPayload payload, disclosures⟩

end Parts
end SelectiveDisclosure
