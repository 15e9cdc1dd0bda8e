import SelectiveDisclosure.Key.Jwk

/-!
# The header of a JWS

Six parameters have a meaning of their own; all others are kept in ascending order of their
names.
-/

set_option autoImplicit false

namespace SelectiveDisclosure.Jws

structure Header where
  algorithm : Algorithm
  jwk : Option Jwk
  keyId : Option String
  tokenType : Option String
  contentType : Option String
  critical : Option (List String)
  parameters : Json.Members

inductive HeaderError where
  | base64 (e : Base64Url.DecodeError)
  | json
  deriving DecidableEq

/-- What stands for the cause when a text is not the JSON that it should be. -/
def jsonErrorMessage : String := "<json>"

namespace HeaderError

def message : HeaderError → String
  | .base64 e => e.message
  | .json => jsonErrorMessage

end HeaderError

namespace Header

def ofAlgorithm (a : Algorithm) : Header :=
  ⟨a, none, none, none, none, none, []⟩

def ownNames : List String := ["alg", "jwk", "kid", "typ", "cty", "crit"]

def ofJson? (v : Json.Value) : Option Header := do
  let ms ← v.object?
  let algorithm ← ms.required? "alg" Algorithm.ofJson?
  let jwk ← ms.optional? "jwk" Jwk.ofJson?
  let keyId ← ms.optional? "kid" Json.Value.string?
  let tokenType ← ms.optional? "typ" Json.Value.string?
  let contentType ← ms.optional? "cty" Json.Value.string?
  let critical ← ms.optional? "crit" Json.Value.strings?
  let others := ms.filter fun m => !ownNames.contains m.1
  let parameters := Json.Members.ofList (Json.Value.sortedMembers others)
  return ⟨algorithm, jwk, keyId, tokenType, contentType, critical, parameters⟩

def written (h : Header) : Json.Value :=
  .object <|
    ("alg", h.algorithm.toJson) ::
    Json.Members.optional "jwk" Jwk.written h.jwk ++
    Json.Members.optional "kid" .string h.keyId ++
    Json.Members.optional "typ" .string h.tokenType ++
    Json.Members.optional "cty" .string h.contentType ++
    Json.Members.optional "crit" .ofStrings h.critical ++
    h.parameters

def text (h : Header) : String :=
  h.written.text

def ofText? (s : String) : Option Header :=
  (Json.Value.read? s).bind ofJson?

def encode (h : Header) : Octets :=
  Base64Url.encode h.written.octets

def decode (bs : Octets) : Except HeaderError Header :=
  match Base64Url.decode bs with
  | .error e => .error (.base64 e)
  | .ok json =>
    match (Json.Value.readOctets? json).bind ofJson? with
    | some h => .ok h
    | none => .error .json

def signingOctets (h : Header) (payload : Octets) : Octets :=
  h.encode ++ 46 :: Base64Url.encode payload

end Header
end SelectiveDisclosure.Jws
