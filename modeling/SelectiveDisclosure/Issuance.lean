import SelectiveDisclosure.Claims.Concealing
import SelectiveDisclosure.Jws.Signing
import SelectiveDisclosure.Token.Compact

/-!
# Issuing tokens

An issuer conceals claims and signs what remains. The token can be bound to the key of a holder:
the public part of the key stands in the claim `cnf`, which is then never concealed.
-/

set_option autoImplicit false

namespace SelectiveDisclosure

open Json

def confirmationName : String := "cnf"

inductive IssueError where
  | conceal (e : ConcealError)
  | signature (e : SignatureError)
  | concealedConfirmationKey

namespace IssueError

def message : IssueError → String
  | .conceal e => e.message
  | .signature e => e.message
  | .concealedConfirmationKey => "cannot conceal `cnf` of a holder-bound SD-JWT"

end IssueError

structure Issuer where
  signer : Signer
  algorithm : HashAlgorithm := .sha256
  decoys : Nat := 0
  tokenType : Option String := some "sd+jwt"

structure Issued where
  octets : Octets
  payload : Payload
  disclosures : List Disclosure

namespace Issuer

/-- The places inside `cnf`, and `cnf` itself. -/
def isConfirmation (place : Pointer) : Bool :=
  match place.tokens with
  | [] => false
  | t :: _ => t.toDecoded == confirmationName

def confirmation (holder : Jwk) : Value :=
  .object [("jwk", holder.toPublic.toJson)]

def bind (holder : Option Jwk) (claims : Members) : Members :=
  match holder with
  | none => claims
  | some k => Members.insert confirmationName (confirmation k) claims

def concealClaims (f : DigestFunction) (i : Issuer) (random : RandomSource) (claims : Members)
    (places : List Pointer) (holder : Option Jwk) :
    Except IssueError (Payload × List Disclosure) :=
  if holder.isSome && places.any isConfirmation then .error .concealedConfirmationKey
  else
    match Payload.conceal f ⟨i.algorithm, i.decoys, random⟩ claims places with
    | .error e => .error (.conceal e)
    | .ok (payload, ds) => .ok ({ payload with claims := bind holder payload.claims }, ds)

def issue (f : DigestFunction) (i : Issuer) (random : RandomSource) (claims : Value)
    (places : List Pointer) (holder : Option Jwk) : Except IssueError Issued := do
  let members ← match claims with
    | .object members => pure members
    | _ => throw (.conceal .notAnObject)
  let (payload, ds) ← i.concealClaims f random members places holder
  let jwt ← (i.signer.signPayload i.tokenType payload.written.octets).mapError .signature
  return ⟨Parts.octets ⟨jwt, ds.map Disclosure.encoded, none⟩, payload, ds⟩

end Issuer
end SelectiveDisclosure
