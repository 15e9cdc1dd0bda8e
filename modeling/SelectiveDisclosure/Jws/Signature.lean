import SelectiveDisclosure.Curve.Ecdsa
import SelectiveDisclosure.Key.Jwk
import SelectiveDisclosure.Text.Quoted

/-!
# Making and checking signatures with keys

A key signs with an algorithm of its own curve. A signature that is not one, or not of these
octets, is a plain `false`; the errors are about keys and algorithms.
-/

set_option autoImplicit false

namespace SelectiveDisclosure

inductive SignatureError where
  | missingAlgorithm
  | algorithmMismatch
  | unsupportedAlgorithm (name : String)
  | unsupportedCriticalParameters (names : List String)
  | invalidPublicKey
  | invalidSecretKey
  | invalidSignature
  | other (cause : String)
  deriving DecidableEq, Repr

namespace SignatureError

def message : SignatureError → String
  | .missingAlgorithm => "missing signature algorithm"
  | .algorithmMismatch => "algorithm mismatch"
  | .unsupportedAlgorithm name => Algorithm.unsupportedMessage name
  | .unsupportedCriticalParameters names =>
    "unsupported critical header parameters `" ++ Text.quotedList names ++ "`"
  | .invalidPublicKey => "invalid public key"
  | .invalidSecretKey => "invalid secret key"
  | .invalidSignature => "invalid signature"
  | .other cause => cause

end SignatureError

structure SignerInfo where
  keyId : Option String
  algorithm : Algorithm
  deriving DecidableEq

structure Signer where
  info : Except SignatureError SignerInfo
  sign : Octets → Except SignatureError Octets

/-- Checks a signature under an algorithm: the signed octets, the signature, the key. -/
abbrev SignatureCheck := Algorithm → Octets → Octets → Jwk → Except SignatureError Bool

namespace Jwk

def checkAlgorithm (k : Jwk) (a : Algorithm) : Except SignatureError Unit :=
  match a.curveName? with
  | some curve => if k.curve = some curve then .ok () else .error .algorithmMismatch
  | none => .ok ()

def signWith (k : Jwk) (a : Algorithm) (data : Octets) : Except SignatureError Octets := do
  k.checkAlgorithm a
  match a.curve? with
  | none => throw (.unsupportedAlgorithm a.name)
  | some c =>
    match k.secretKey c with
    | .error _ => throw .invalidSecretKey
    | .ok key =>
      match c.sign? key data with
      | some signature => return signature
      | none => throw (.other "signature error")

def signer (k : Jwk) : Signer where
  info :=
    match k.algorithm? with
    | some a => .ok ⟨k.keyId, a⟩
    | none => .error .missingAlgorithm
  sign data :=
    match k.algorithm? with
    | some a => k.signWith a data
    | none => .error .missingAlgorithm

end Jwk

namespace SignatureCheck

def ecdsa : SignatureCheck := fun a data signature k => do
  k.checkAlgorithm a
  match a.curve? with
  | none => throw (.unsupportedAlgorithm a.name)
  | some c =>
    match k.publicKey c with
    | .error _ => throw .invalidPublicKey
    | .ok key => return c.verify key data signature

end SignatureCheck
end SelectiveDisclosure
