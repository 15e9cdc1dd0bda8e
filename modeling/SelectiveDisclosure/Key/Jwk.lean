import SelectiveDisclosure.Key.Algorithm
import SelectiveDisclosure.Curve.Group
import SelectiveDisclosure.Json.Printer
import SelectiveDisclosure.Json.Parser
import SelectiveDisclosure.Base64Url

/-!
# Keys

A key is a record of optional parameters: what it is for, and the curve, point and secret number
of an elliptic-curve key, the octets of the latter in base64. A key without the secret number is
public.
-/

set_option autoImplicit false

namespace SelectiveDisclosure

structure Jwk where
  usage : Option String
  operations : Option (List String)
  algorithm : Option Algorithm
  keyId : Option String
  curve : Option String
  x : Option Octets
  y : Option Octets
  secret : Option Octets
  deriving DecidableEq

inductive KeyError where
  | missingCurve
  | missingPoint
  | curveNotImplemented (curve : String)
  | missingPrivateKey
  | invalidKey
  deriving DecidableEq, Repr

namespace KeyError

def message : KeyError → String
  | .missingCurve => "JWK has no `crv` parameter"
  | .missingPoint => "JWK has no curve point"
  | .curveNotImplemented curve => s!"unsupported curve `{curve}`"
  | .missingPrivateKey => "JWK has no private key"
  | .invalidKey => "invalid key material"

end KeyError

namespace Jwk

def ofCurve (curve : String) : Jwk :=
  ⟨none, none, none, none, some curve, none, none, none⟩

/-! ## Reading and writing -/

/-- Padding at the end of the text is ignored. -/
def octets? : Json.Value → Option Octets
  | .string s =>
    match Base64Url.decode (Base64Url.stripPadding (Octets.ofText s)) with
    | .ok bs => some bs
    | .error _ => none
  | _ => none

def ofOctets (bs : Octets) : Json.Value :=
  .string (Base64Url.encodeText bs)

/-- The only type of keys, by its name or by its place among the types. -/
def keyType? : Json.Value → Option Unit
  | .string s => if s = "EC" then some () else none
  | .number (.integer n _) => if n = 0 then some () else none
  | _ => none

/-- Members with other names are ignored. -/
def ofJson? (v : Json.Value) : Option Jwk := do
  let ms ← v.object?
  let usage ← ms.optional? "use" Json.Value.string?
  let operations ← ms.optional? "key_ops" Json.Value.strings?
  let algorithm ← ms.optional? "alg" Algorithm.ofJson?
  let keyId ← ms.optional? "kid" Json.Value.string?
  let _ ← ms.required? "kty" keyType?
  let curve ← ms.optional? "crv" Json.Value.string?
  let x ← ms.optional? "x" octets?
  let y ← ms.optional? "y" octets?
  let secret ← ms.optional? "d" octets?
  return ⟨usage, operations, algorithm, keyId, curve, x, y, secret⟩

def ofText? (s : String) : Option Jwk :=
  (Json.Value.read? s).bind ofJson?

/-- The curve and the point are written even when they are absent. -/
def written (k : Jwk) : Json.Value :=
  .object <|
    Json.Members.optional "use" .string k.usage ++
    Json.Members.optional "key_ops" .ofStrings k.operations ++
    Json.Members.optional "alg" Algorithm.toJson k.algorithm ++
    Json.Members.optional "kid" .string k.keyId ++
    [("kty", .string "EC"), ("crv", (k.curve.map .string).getD .null),
      ("x", (k.x.map ofOctets).getD .null), ("y", (k.y.map ofOctets).getD .null)] ++
    Json.Members.optional "d" ofOctets k.secret

def text (k : Jwk) : String :=
  k.written.text

def toJson (k : Jwk) : Json.Value :=
  k.written.sorted

/-! ## Identity -/

def withKeyId (k : Jwk) (keyId : String) : Jwk :=
  { k with keyId := some keyId }

def toPublic (k : Jwk) : Jwk :=
  { k with secret := none }

def isPublic (k : Jwk) : Bool :=
  k.secret.isNone

def algorithm? (k : Jwk) : Option Algorithm :=
  k.algorithm.or (k.curve.bind Algorithm.ofCurveName?)

/-- Both keys have the same curve and point, and none of it is missing. -/
def equalsPublic (k l : Jwk) : Bool :=
  k.curve.isSome && k.x.isSome && k.y.isSome && k.curve == l.curve && k.x == l.x && k.y == l.y

def thumbprintText (curve : String) (x y : Octets) : String :=
  "\x7b\"crv\":\"" ++ curve ++ "\",\"kty\":\"EC\",\"x\":\"" ++ Base64Url.encodeText x ++
    "\",\"y\":\"" ++ Base64Url.encodeText y ++ "\"\x7d"

def identifyingText (k : Jwk) : Except KeyError String :=
  match k.curve, k.x, k.y with
  | none, _, _ => .error .missingCurve
  | some curve, some x, some y => .ok (thumbprintText curve x y)
  | some _, _, _ => .error .missingPoint

def thumbprint (k : Jwk) : Except KeyError String := do
  let text ← k.identifyingText
  return Base64Url.encodeText (Sha2.sha256 (Octets.ofText text))

def withThumbprintKeyId (k : Jwk) : Except KeyError Jwk := do
  return k.withKeyId (← k.thumbprint)

/-! ## Keys of the curves -/

def pointOctets (k : Jwk) : Except KeyError Octets :=
  match k.x, k.y with
  | some x, some y => .ok (4 :: x ++ y)
  | _, _ => .error .missingPoint

def checkCurve (k : Jwk) (c : Curve) : Except KeyError Unit :=
  match k.curve with
  | some curve => if curve = c.name then .ok () else .error (.curveNotImplemented curve)
  | none => .error .missingCurve

def publicKey (k : Jwk) (c : Curve) : Except KeyError c.PublicKey := do
  k.checkCurve c
  match c.decodePublicKey? (← k.pointOctets) with
  | some key => return key
  | none => throw .invalidKey

def secretKey (k : Jwk) (c : Curve) : Except KeyError c.SecretKey := do
  k.checkCurve c
  match k.secret with
  | none => throw .missingPrivateKey
  | some secret =>
    match c.decodeSecretKey? secret with
    | some key => return key
    | none => throw .invalidKey

def ofPublicKey {c : Curve} (key : c.PublicKey) : Jwk :=
  { ofCurve c.name with
    x := some (Octets.ofNat c.octets key.x)
    y := some (Octets.ofNat c.octets key.y) }

def ofSecretKey? {c : Curve} (key : c.SecretKey) : Option Jwk := do
  let publicKey ← key.publicKey?
  return { ofPublicKey publicKey with secret := some (Octets.ofNat c.octets key.multiplier) }

end Jwk
end SelectiveDisclosure
