import SelectiveDisclosure.Jws.Compact
import SelectiveDisclosure.Jws.Signature

/-!
# Signing and verifying a JWS

The header of a signed JWS tells the algorithm and the key id of the signer, and the type of the
payload. A JWS with critical parameters never verifies, since none is understood.
-/

set_option autoImplicit false

namespace SelectiveDisclosure

namespace Signer

def header (info : SignerInfo) (tokenType : Option String) : Jws.Header :=
  { Jws.Header.ofAlgorithm info.algorithm with keyId := info.keyId, tokenType := tokenType }

def signPayload (s : Signer) (tokenType : Option String) (payload : Octets) :
    Except SignatureError Jws := do
  let info ← s.info
  let signingOctets := (header info tokenType).signingOctets payload
  let signature ← s.sign signingOctets
  match Jws.assemble? signingOctets signature with
  | some j => return j
  | none => throw (.other Jws.invalidMessage)

end Signer

namespace Jws.Decoded

def checkKeyAlgorithm {α : Type} (d : Decoded α) (k : Jwk) : Except SignatureError Unit :=
  match k.algorithm with
  | some a => if a = d.header.algorithm then .ok () else .error .algorithmMismatch
  | none => .ok ()

def verify {α : Type} (d : Decoded α) (check : SignatureCheck) (k : Jwk) :
    Except SignatureError Bool := do
  match d.header.critical with
  | some names => throw (.unsupportedCriticalParameters names)
  | none =>
    d.checkKeyAlgorithm k
    check d.header.algorithm d.signingOctets d.signature k

end Jws.Decoded
end SelectiveDisclosure
