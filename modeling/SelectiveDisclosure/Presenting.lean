import SelectiveDisclosure.KeyBinding
import SelectiveDisclosure.Jws.Signing
import SelectiveDisclosure.Token.Revealed

/-!
# Presenting tokens

A holder shows a token with some of its disclosures. What lies inside a concealed value can only
be shown together with that value. A presentation can be bound to one audience and one nonce.
-/

set_option autoImplicit false

namespace SelectiveDisclosure

/-- Tells which disclosures to show, by their places and what they disclose. -/
abbrev Selection := Pointer → Disclosure → Bool

namespace DisclosureMap

def select (m : DisclosureMap) (s : Selection) : DisclosureMap :=
  m.filter fun e => s e.1 e.2

def upTo (m : DisclosureMap) (places : List Pointer) : DisclosureMap :=
  m.filter fun e => places.any fun p => p = e.1 || e.1.isAncestorOf p

def encoded (m : DisclosureMap) : List Octets :=
  m.map fun e => e.2.encoded

end DisclosureMap

inductive PresentError where
  | reveal (e : RevealError)
  | signature (e : SignatureError)

namespace PresentError

def message : PresentError → String
  | .reveal e => e.message
  | .signature e => e.message

end PresentError

structure Challenge where
  audience : String
  nonce : String
  issuedAt : NumericDate

namespace Challenge

def keyBinding (c : Challenge) (tokenDigest : String) : KeyBinding :=
  ⟨c.audience, c.nonce, c.issuedAt, tokenDigest, none, none⟩

end Challenge

namespace Revealed

def digestAlgorithm (r : Revealed) : HashAlgorithm :=
  r.algorithm.getD .sha256

def shown (r : Revealed) (s : Selection) : List Octets :=
  (r.disclosures.upTo (r.disclosures.select s).places).encoded

end Revealed

namespace Token

def showing (t : Token) (shown : List Octets) : Octets :=
  Parts.octets ⟨t.jwt, t.disclosures.filter fun d => shown.contains d, none⟩

def bindTo (f : DigestFunction) (holder : Signer) (algorithm : HashAlgorithm)
    (challenge : Challenge) (front : Octets) : Except SignatureError Jws :=
  holder.signPayload (some KeyBinding.tokenType)
    (challenge.keyBinding (f algorithm front)).written.octets

def present (f : DigestFunction) (t : Token) (holder : Signer) (s : Selection)
    (challenge : Option Challenge) : Except PresentError Octets := do
  let r ← (t.reveal f).mapError .reveal
  let front := t.showing (r.shown s)
  match challenge with
  | none => return front
  | some c =>
    let jwt ← (bindTo f holder r.digestAlgorithm c front).mapError .signature
    return front ++ jwt.octets

end Token
end SelectiveDisclosure
