import SelectiveDisclosure.Key.Jwk

/-!
# Finding the key of an issuer

A store of keys holds public keys by issuer, in the order in which they were inserted.
-/

set_option autoImplicit false

namespace SelectiveDisclosure

inductive KeyResolutionError where
  | notFound (what : String)
  | other (cause : String)
  deriving DecidableEq, Repr

namespace KeyResolutionError

def message : KeyResolutionError → String
  | .notFound what => s!"key not found: {what}"
  | .other cause => s!"key resolution failed: {cause}"

end KeyResolutionError

/-- Answers the public key for an issuer and a key id, either of which may be unknown. -/
abbrev KeyResolver := Option String → Option String → Except KeyResolutionError Jwk

def Jwk.resolver (k : Jwk) : KeyResolver :=
  fun _ _ => .ok k.toPublic

structure IssuerKeys where
  entries : List (String × Jwk)

namespace IssuerKeys

def empty : IssuerKeys := ⟨[]⟩

def insert (keys : IssuerKeys) (issuer : String) (k : Jwk) : IssuerKeys :=
  ⟨keys.entries ++ [(issuer, k.toPublic)]⟩

def ofIssuer (keys : IssuerKeys) (issuer : String) : List Jwk :=
  keys.entries.filterMap fun e => if e.1 = issuer then some e.2 else none

/-- The first key with the key id; without one, the issuer must have a single key. -/
def get? (keys : IssuerKeys) (issuer : String) : Option String → Option Jwk
  | some keyId => (keys.ofIssuer issuer).find? fun k => k.keyId == some keyId
  | none =>
    match keys.ofIssuer issuer with
    | [k] => some k
    | _ => none

def resolver (keys : IssuerKeys) : KeyResolver := fun issuer keyId =>
  match issuer with
  | none => .error (.notFound "missing issuer")
  | some issuer =>
    match keys.get? issuer keyId with
    | some k => .ok k
    | none => .error (.notFound issuer)

end IssuerKeys
end SelectiveDisclosure
