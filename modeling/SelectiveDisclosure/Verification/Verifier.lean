import SelectiveDisclosure.Issuance
import SelectiveDisclosure.Presenting
import SelectiveDisclosure.Verification.NonceRegistry
import SelectiveDisclosure.Verification.Rejection

/-!
# Verifying presentations

A presentation is accepted when the key of its issuer has signed it, all its disclosures belong to
it, its key binding is right and the dates in its claims hold. All of this is examined before the
nonce of the policy is consumed.
-/

set_option autoImplicit false

namespace SelectiveDisclosure

open Json

structure KeyBindingPolicy where
  audience : String
  nonce : String
  maxAge : Duration := .ofSeconds 300
  checksPeriod : Bool := false
  consumesNonce : Bool := false

structure Verifier where
  resolver : KeyResolver
  check : SignatureCheck
  clock : Clock
  policy : Option KeyBindingPolicy

structure Verified where
  header : Jws.Header
  claims : Members
  keyBindingVerified : Bool
  disclosures : DisclosureMap

namespace Verifier

/-! ## Dates -/

def instantOf (name : String) (d : NumericDate) : Except Rejection Instant :=
  match d.toInstant? with
  | some t => .ok t
  | none => .error (.malformedPresentation (.date name))

def optionalInstantOf (name : String) : Option NumericDate → Except Rejection (Option Instant)
  | none => .ok none
  | some d => (instantOf name d).map some

/-- A claim with a date: it may be missing, but not `null`. -/
def dateClaim (claims : Members) (name : String) : Except Rejection (Option Instant) :=
  match Members.get? claims name with
  | none => .ok none
  | some v =>
    match NumericDate.ofJson? v with
    | some d => (instantOf name d).map some
    | none => .error (.malformedPresentation (.date name))

def checkPeriod (v : Verifier) (validFrom validUntil : Option Instant) : Except Rejection Unit :=
  (v.clock.checkPeriod validFrom validUntil).mapError .ofPeriod

def checkDates (v : Verifier) (claims : Members) : Except Rejection Unit := do
  let validFrom ← dateClaim claims "nbf"
  let validUntil ← dateClaim claims "exp"
  v.checkPeriod validFrom validUntil

/-! ## Signatures -/

def issuerOf (claims : Members) : Option String :=
  (Members.get? claims "iss").bind Value.string?

/-- A signature that cannot be checked counts as a wrong one. -/
def checkSigned {α : Type} (v : Verifier) (d : Jws.Decoded α) (k : Jwk) (otherwise : Rejection) :
    Except Rejection Unit :=
  match d.verify v.check k with
  | .ok true => .ok ()
  | _ => .error otherwise

def checkIssuer (v : Verifier) (jwt : Jws.Decoded Payload) : Except Rejection Unit := do
  let k ← (v.resolver (issuerOf jwt.payload.claims) jwt.header.keyId).mapError .ofKeyResolution
  v.checkSigned jwt k .invalidSignature

/-! ## Key binding -/

def confirmationKey? (claims : Members) : Option Jwk := do
  let confirmation ← (← Members.get? claims confirmationName).object?
  Jwk.ofJson? (← Members.get? confirmation "jwk")

def decodeKeyBinding (v : Verifier) (k : Jwk) (jwt : Jws) : Except Rejection KeyBinding := do
  let d ← jwt.decode.mapError fun e => .malformedPresentation (.keyBindingJwt e)
  if d.header.tokenType ≠ some KeyBinding.tokenType then
    throw (.malformedPresentation .keyBindingType)
  v.checkSigned d k .invalidKeyBindingSignature
  match KeyBinding.ofOctets? d.payload with
  | some b => return b
  | none => throw (.malformedPresentation .keyBindingClaims)

def checkChallenge (b : KeyBinding) (p : KeyBindingPolicy) : Except Rejection Unit :=
  if b.audience ≠ p.audience then .error .audienceMismatch
  else if b.nonce ≠ p.nonce then .error .nonceMismatch
  else .ok ()

def maxAge (v : Verifier) : Duration :=
  match v.policy with
  | some p => p.maxAge
  | none => .ofSeconds 300

def checkRecent (v : Verifier) (b : KeyBinding) : Except Rejection Unit := do
  let issuedAt ← instantOf "iat" b.issuedAt
  match v.clock.isRecent? v.maxAge issuedAt with
  | some true => return ()
  | some false => throw .staleKeyBinding
  | none => throw .noSuchInstant

def checkLifetime (v : Verifier) (b : KeyBinding) : Except Rejection Unit := do
  let validFrom ← optionalInstantOf "nbf" b.notBefore
  let validUntil ← optionalInstantOf "exp" b.expiresAt
  v.checkPeriod validFrom validUntil

def checkKeyBinding (f : DigestFunction) (v : Verifier) (r : Revealed) (front : Octets)
    (jwt : Jws) : Except Rejection Unit := do
  match confirmationKey? r.claims with
  | none => throw .missingConfirmationKey
  | some k =>
    let b ← v.decodeKeyBinding k jwt
    if b.tokenDigest ≠ f r.digestAlgorithm front then throw .tokenDigestMismatch
    match v.policy with
    | none => v.checkRecent b
    | some p => do
      checkChallenge b p
      v.checkRecent b
      if p.checksPeriod then v.checkLifetime b

/-- Answers whether there is a key binding. -/
def checkBinding (f : DigestFunction) (v : Verifier) (r : Revealed) (p : Presentation) :
    Except Rejection Bool :=
  match p.keyBinding, v.policy with
  | some jwt, _ => do
    v.checkKeyBinding f r p.token.octets jwt
    return true
  | none, some _ => .error .missingKeyBinding
  | none, none => .ok false

/-! ## Presentations -/

/-- All that does not depend on the nonces consumed before. -/
def examine (f : DigestFunction) (v : Verifier) (bs : Octets) : Except Rejection Verified := do
  match Presentation.ofOctets? bs with
  | none => throw (.malformedPresentation .compactForm)
  | some p =>
    let t ← p.parts.decode.mapError .ofDecode
    v.checkIssuer t.jwt
    let r ← (t.reveal f).mapError .ofReveal
    let bound ← v.checkBinding f r p
    v.checkDates r.claims
    return ⟨r.jwt.header, r.claims, bound, r.disclosures⟩

def consumedNonce? (v : Verifier) : Option String :=
  v.policy.bind fun p => if p.consumesNonce then some p.nonce else none

/-- Examines a presentation and then consumes the nonce; the registry changes only with a
presentation that is accepted. -/
def verify (f : DigestFunction) (v : Verifier) (registry : NonceRegistry) (bs : Octets) :
    Except Rejection Verified × NonceRegistry :=
  match v.examine f bs with
  | .error e => (.error e, registry)
  | .ok verified =>
    match v.consumedNonce? with
    | none => (.ok verified, registry)
    | some nonce =>
      match registry.consume? nonce with
      | none => (.error .nonceMismatch, registry)
      | some registry => (.ok verified, registry)

end Verifier
end SelectiveDisclosure
