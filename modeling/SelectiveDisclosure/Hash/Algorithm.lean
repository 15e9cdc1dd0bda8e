import SelectiveDisclosure.Hash.Sha2
import SelectiveDisclosure.Base64Url
import SelectiveDisclosure.Json.Members

/-!
# Hash algorithms of digests

A digest is the base64 text of a hash. The three algorithms never give texts of one length.
-/

set_option autoImplicit false

namespace SelectiveDisclosure

inductive HashAlgorithm where
  | sha256
  | sha384
  | sha512
  deriving DecidableEq, Repr

abbrev DigestFunction := HashAlgorithm → Octets → String

namespace HashAlgorithm

def name : HashAlgorithm → String
  | .sha256 => "sha-256"
  | .sha384 => "sha-384"
  | .sha512 => "sha-512"

def ofName? (s : String) : Option HashAlgorithm :=
  if s = "sha-256" then some .sha256
  else if s = "sha-384" then some .sha384
  else if s = "sha-512" then some .sha512
  else none

def toJson (a : HashAlgorithm) : Json.Value :=
  .string a.name

def ofJson? (v : Json.Value) : Option HashAlgorithm :=
  v.string?.bind ofName?

def hash : HashAlgorithm → Octets → Octets
  | .sha256 => Sha2.sha256
  | .sha384 => Sha2.sha384
  | .sha512 => Sha2.sha512

def digest : DigestFunction := fun a bs =>
  Base64Url.encodeText (a.hash bs)

end HashAlgorithm
end SelectiveDisclosure
