import SelectiveDisclosure.Json.Members
import SelectiveDisclosure.Json.Printer
import SelectiveDisclosure.Json.Parser
import SelectiveDisclosure.Base64Url
import SelectiveDisclosure.Hash.Algorithm

/-!
# Disclosures

A disclosure is the base64 text of a JSON array: a salt, the name of the member unless the value
stood in an array, and the value. Its digest is that of the text as it was received, so the text
is kept beside what it says.
-/

set_option autoImplicit false

namespace SelectiveDisclosure

def reservedNames : List String := ["_sd", "...", "_sd_alg"]

def isReserved (name : String) : Bool :=
  reservedNames.contains name

inductive Concealed where
  | member (name : String) (value : Json.Value)
  | item (value : Json.Value)
  deriving DecidableEq

namespace Concealed

def value : Concealed → Json.Value
  | .member _ v => v
  | .item v => v

def name? : Concealed → Option String
  | .member name _ => some name
  | .item _ => none

def salted (salt : String) : Concealed → Json.Value
  | .member name v => .array [.string salt, .string name, v]
  | .item v => .array [.string salt, v]

end Concealed

structure Disclosure where
  encoded : Octets
  salt : String
  concealed : Concealed
  deriving DecidableEq

namespace Disclosure

def isEncoded (bs : Octets) : Bool :=
  !bs.isEmpty && Base64Url.isText bs

def encode (salt : String) (concealed : Concealed) : Octets :=
  Base64Url.encode (concealed.salted salt).octets

def ofParts (salt : String) (concealed : Concealed) : Disclosure :=
  ⟨encode salt concealed, salt, concealed⟩

def text (d : Disclosure) : String :=
  Octets.ascii d.encoded

def digest (f : DigestFunction) (a : HashAlgorithm) (d : Disclosure) : String :=
  f a d.encoded

inductive DecodeError where
  | malformed
  | reservedName (name : String)
  deriving DecidableEq, Repr

/-- Two items conceal an item, three a member, whose name must not be reserved. -/
def ofJson (encoded : Octets) : Json.Value → Except DecodeError Disclosure
  | .array [.string salt, value] => .ok ⟨encoded, salt, .item value⟩
  | .array [.string salt, .string name, value] =>
    if isReserved name then .error (.reservedName name)
    else .ok ⟨encoded, salt, .member name value⟩
  | _ => .error .malformed

def decode (bs : Octets) : Except DecodeError Disclosure :=
  if isEncoded bs then
    match Base64Url.decode bs with
    | .error _ => .error .malformed
    | .ok json =>
      match Json.Value.parseOctets? json with
      | some v => ofJson bs v
      | none => .error .malformed
  else .error .malformed

end Disclosure
end SelectiveDisclosure
