import SelectiveDisclosure.Json.Raw
import SelectiveDisclosure.Json.Members
import SelectiveDisclosure.Json.Printer
import SelectiveDisclosure.Time.NumericDate

/-!
# Claims of a key binding

A key binding names the audience and the nonce of one presentation, when it was made, and the
digest of what is presented. It is read from an object, of which other members are ignored, or
from an array of the same values in order.
-/

set_option autoImplicit false

namespace SelectiveDisclosure

open Json

structure KeyBinding where
  audience : String
  nonce : String
  issuedAt : NumericDate
  tokenDigest : String
  expiresAt : Option NumericDate
  notBefore : Option NumericDate
  deriving DecidableEq

namespace KeyBinding

def tokenType : String := "kb+jwt"

def written (b : KeyBinding) : Value :=
  .object <|
    [("aud", .string b.audience), ("nonce", .string b.nonce), ("iat", b.issuedAt.toJson),
      ("sd_hash", .string b.tokenDigest)] ++
    Members.optional "exp" NumericDate.toJson b.expiresAt ++
    Members.optional "nbf" NumericDate.toJson b.notBefore

def field? {α : Type} (ms : List (String × Octets)) (name : String) (read : Value → Option α) :
    Option α :=
  match ms.filter fun m => m.1 = name with
  | [(_, raw)] => (Value.readOctets? raw).bind read
  | _ => none

def orNull {α : Type} (read : Value → Option α) : Value → Option (Option α)
  | .null => some none
  | v => (read v).map some

def optionalField? {α : Type} (ms : List (String × Octets)) (name : String)
    (read : Value → Option α) : Option (Option α) :=
  match ms.filter fun m => m.1 = name with
  | [] => some none
  | _ => field? ms name (orNull read)

def ofMembers? (ms : List (String × Octets)) : Option KeyBinding := do
  let audience ← field? ms "aud" Value.string?
  let nonce ← field? ms "nonce" Value.string?
  let issuedAt ← field? ms "iat" NumericDate.ofJson?
  let tokenDigest ← field? ms "sd_hash" Value.string?
  let expiresAt ← optionalField? ms "exp" NumericDate.ofJson?
  let notBefore ← optionalField? ms "nbf" NumericDate.ofJson?
  return ⟨audience, nonce, issuedAt, tokenDigest, expiresAt, notBefore⟩

def ofItems? : List Value → Option KeyBinding
  | .string audience :: .string nonce :: iat :: .string tokenDigest :: r => do
    let issuedAt ← NumericDate.ofJson? iat
    match r with
    | [] => return ⟨audience, nonce, issuedAt, tokenDigest, none, none⟩
    | [exp] => return ⟨audience, nonce, issuedAt, tokenDigest,
        ← orNull NumericDate.ofJson? exp, none⟩
    | [exp, nbf] => return ⟨audience, nonce, issuedAt, tokenDigest,
        ← orNull NumericDate.ofJson? exp, ← orNull NumericDate.ofJson? nbf⟩
    | _ => none
  | _ => none

def ofOctets? (bs : Octets) : Option KeyBinding :=
  match Raw.members? bs with
  | some ms => ofMembers? ms
  | none =>
    match Value.readOctets? bs with
    | some (.array items) => ofItems? items
    | _ => none

end KeyBinding
end SelectiveDisclosure
