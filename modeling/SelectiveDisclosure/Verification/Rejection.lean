import SelectiveDisclosure.Claims.Revealing
import SelectiveDisclosure.Key.Resolution
import SelectiveDisclosure.KeyBinding
import SelectiveDisclosure.Time.Validity

/-!
# Rejections

Why a presentation is not accepted. The message of a rejection is for the verifier; whoever
presented the token is told the same for every one.
-/

set_option autoImplicit false

namespace SelectiveDisclosure

inductive Malformation where
  | compactForm
  | jwt (e : Jws.DecodeError)
  | payload
  | algorithmNotText
  | digestsNotArray
  | digestNotText
  | keyBindingJwt (e : Jws.DecodeError)
  | keyBindingType
  | keyBindingClaims
  | date (name : String)

namespace Malformation

def message : Malformation → String
  | .compactForm => "invalid compact SD-JWT"
  | .jwt e => e.message
  | .payload => Jws.jsonErrorMessage
  | .algorithmNotText => Token.DecodeError.algorithmNotText.message
  | .digestsNotArray => RevealError.digestsNotArray.message
  | .digestNotText => RevealError.digestNotText.message
  | .keyBindingJwt e => "invalid key binding JWT: " ++ e.message
  | .keyBindingType => "key binding JWT `typ` is not `" ++ KeyBinding.tokenType ++ "`"
  | .keyBindingClaims => "invalid key binding claims: " ++ Jws.jsonErrorMessage
  | .date name => s!"invalid `{name}` claim"

end Malformation

inductive Rejection where
  | malformedPresentation (what : Malformation)
  | malformedDisclosure
  | unsupportedHashAlgorithm (name : String)
  | missingAlgorithm
  | keyNotFound (what : String)
  | keyResolution (cause : String)
  | invalidSignature
  | duplicateDigest (digest : String)
  | unresolvedDisclosure (encoded : String)
  | shapeMismatch (digest : String)
  | nameCollision (name : String)
  | reservedName (name : String)
  | missingKeyBinding
  | missingConfirmationKey
  | invalidKeyBindingSignature
  | audienceMismatch
  | nonceMismatch
  | tokenDigestMismatch
  | staleKeyBinding
  | expired
  | notYetValid
  | noSuchInstant

namespace Rejection

def message : Rejection → String
  | .malformedPresentation what => "malformed presentation: " ++ what.message
  | .malformedDisclosure => "malformed disclosure"
  | .unsupportedHashAlgorithm name => s!"unsupported hash algorithm `{name}`"
  | .missingAlgorithm => "missing `_sd_alg` claim"
  | .keyNotFound what => s!"issuer key not found: {what}"
  | .keyResolution cause => s!"issuer key resolution failed: {cause}"
  | .invalidSignature => "invalid signature"
  | .duplicateDigest digest => s!"duplicate digest `{digest}`"
  | .unresolvedDisclosure encoded => s!"unresolved disclosure `{encoded}`"
  | .shapeMismatch digest => s!"disclosure shape mismatch for digest `{digest}`"
  | .nameCollision name => s!"claim name collision on `{name}`"
  | .reservedName name => s!"reserved claim name `{name}`"
  | .missingKeyBinding => "missing key binding JWT"
  | .missingConfirmationKey => "missing confirmation key"
  | .invalidKeyBindingSignature => "invalid key binding signature"
  | .audienceMismatch => "audience mismatch"
  | .nonceMismatch => "nonce mismatch"
  | .tokenDigestMismatch => "`sd_hash` mismatch"
  | .staleKeyBinding => "stale key binding JWT"
  | .expired => "expired"
  | .notYetValid => "not yet valid"
  | .noSuchInstant => "date out of range"

def publicMessage (_ : Rejection) : String :=
  "invalid presentation"

def ofDecode : Token.DecodeError → Rejection
  | .jws e => .malformedPresentation (.jwt e)
  | .payload => .malformedPresentation .payload
  | .algorithmNotText => .malformedPresentation .algorithmNotText
  | .unsupportedAlgorithm name => .unsupportedHashAlgorithm name
  | .malformedDisclosure => .malformedDisclosure
  | .reservedName name => .reservedName name

def ofReveal : RevealError → Rejection
  | .decode e => ofDecode e
  | .missingAlgorithm => .missingAlgorithm
  | .unresolvedDisclosure encoded => .unresolvedDisclosure encoded
  | .duplicateDigest digest => .duplicateDigest digest
  | .nameCollision name => .nameCollision name
  | .digestsNotArray => .malformedPresentation .digestsNotArray
  | .digestNotText => .malformedPresentation .digestNotText
  | .expectedMember digest => .shapeMismatch digest
  | .expectedItem digest => .shapeMismatch digest

def ofKeyResolution : KeyResolutionError → Rejection
  | .notFound what => .keyNotFound what
  | .other cause => .keyResolution cause

def ofPeriod : InvalidPeriod → Rejection
  | .premature .. => .notYetValid
  | .expired .. => .expired
  | .noSuchInstant => .noSuchInstant

end Rejection
end SelectiveDisclosure
