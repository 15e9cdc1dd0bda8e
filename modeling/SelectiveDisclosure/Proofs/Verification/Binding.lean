import SelectiveDisclosure.Proofs.Base64Url
import SelectiveDisclosure.Proofs.Verification.Soundness

/-!
# Key bindings belong to one presentation

Digests tell their algorithm, since the three hashes have different lengths. So a key binding that
is accepted behind two tokens names one digest of both, and the tokens are the same unless their
hashes collide.
-/

set_option autoImplicit false

namespace SelectiveDisclosure

/-! ## Digests -/

namespace HashAlgorithm

def size : HashAlgorithm → Nat
  | .sha256 => 32
  | .sha384 => 48
  | .sha512 => 64

theorem length_hash (a : HashAlgorithm) (bs : Octets) : (a.hash bs).length = a.size := by
  cases a with
  | sha256 => exact Sha2.length_sha256 bs
  | sha384 => exact Sha2.length_sha384 bs
  | sha512 => exact Sha2.length_sha512 bs

theorem size_injective {a b : HashAlgorithm} (h : a.size = b.size) : a = b := by
  cases a <;> cases b <;> first | rfl | cases h

theorem digest_eq_digest_iff {a b : HashAlgorithm} {xs ys : Octets} :
    digest a xs = digest b ys ↔ a = b ∧ a.hash xs = a.hash ys := by
  constructor
  · intro h
    have hhash : a.hash xs = b.hash ys := Base64Url.encodeText_injective h
    have hsize := congrArg List.length hhash
    rw [length_hash, length_hash] at hsize
    obtain rfl := size_injective hsize
    exact ⟨rfl, hhash⟩
  · rintro ⟨rfl, h⟩
    rw [digest, digest, h]

end HashAlgorithm

/-! ## Presentations with one key binding -/

namespace Verifier
variable {f : DigestFunction} {v : Verifier} {bs : Octets} {verified : Verified} {parts : Parts}
  {d : Jws.Decoded Octets} {payload : Payload} {ds : List Disclosure}

theorem Accepts.tokenDigest (h : v.Accepts f bs verified parts d payload ds)
    (hne : Presentation.tail bs ≠ []) :
    ∃ (jwt : Jws) (e : Jws.Decoded Octets) (b : KeyBinding),
      jwt.octets = Presentation.tail bs ∧ jwt.decode = .ok e ∧
      KeyBinding.ofOctets? e.payload = some b ∧
      b.tokenDigest = f (payload.algorithm.getD .sha256) (Presentation.front bs) := by
  obtain ⟨hfront, htail⟩ :=
    Presentation.front_tail_octets parts.jwt parts.disclosures parts.keyBinding
  rw [← h.octets] at hfront htail
  cases hkb : parts.keyBinding with
  | none =>
    rw [hkb] at htail
    exact absurd htail hne
  | some jwt =>
    obtain ⟨e, k, b, hb⟩ := h.binding jwt hkb
    rw [hkb] at htail
    exact ⟨jwt, e, b, htail.symm, hb.signed.decoded, hb.content, by rw [hb.tokenDigest, hfront]⟩

/-- Two accepted presentations with one key binding are the same up to the last tilde, whatever
their verifiers are, unless the hashes collide there. -/
theorem front_eq_of_tail_eq (v w : Verifier) (xs ys : Octets) (accepted accepted' : Verified)
    (r r' s s' : NonceRegistry)
    (hv : v.verify HashAlgorithm.digest r xs = (.ok accepted, r'))
    (hw : w.verify HashAlgorithm.digest s ys = (.ok accepted', s'))
    (hbound : Presentation.tail xs ≠ [])
    (hsame : Presentation.tail xs = Presentation.tail ys)
    (hhash : ∀ a : HashAlgorithm, a.hash (Presentation.front xs) = a.hash (Presentation.front ys) →
      Presentation.front xs = Presentation.front ys) :
    Presentation.front xs = Presentation.front ys := by
  obtain ⟨_, _, _, _, hx⟩ := accepts_of_verify hv
  obtain ⟨_, _, _, _, hy⟩ := accepts_of_verify hw
  obtain ⟨jwt, e, b, hjwt, he, hb, hdigest⟩ := hx.tokenDigest hbound
  obtain ⟨jwt', e', b', hjwt', he', hb', hdigest'⟩ := hy.tokenDigest (hsame ▸ hbound)
  -- One key binding is read as one set of claims, so both digests are the one that it names.
  obtain rfl : jwt = jwt' := by
    obtain ⟨os, hos⟩ := jwt
    obtain ⟨os', hos'⟩ := jwt'
    exact (Jws.mk.injEq ..).mpr (hjwt.trans (hsame.trans hjwt'.symm))
  obtain rfl : e = e' := Except.ok.inj (he.symm.trans he')
  obtain rfl : b = b' := Option.some.inj (hb.symm.trans hb')
  obtain ⟨-, hequal⟩ := HashAlgorithm.digest_eq_digest_iff.1 (hdigest.symm.trans hdigest')
  exact hhash _ hequal

theorem exists_accepted {outcome : Except Rejection Verified × NonceRegistry}
    {P : Verified → Prop} (h : ∃ verified ∈ outcome.1.toOption, P verified) :
    ∃ verified registry, outcome = (.ok verified, registry) ∧ P verified := by
  obtain ⟨verified, hmem, hverified⟩ := h
  obtain ⟨accepted, registry⟩ := outcome
  cases accepted with
  | error e => cases hmem
  | ok accepted =>
    cases hmem
    exact ⟨_, registry, rfl, hverified⟩

def undemanding : Verifier :=
  { trusting with policy := none }

theorem front_eq_boundPresentation :
    ∃ accepted accepted' r' s',
      verify HashAlgorithm.digest trusting .empty boundPresentation = (.ok accepted, r') ∧
      verify HashAlgorithm.digest undemanding ⟨["n"]⟩ boundPresentation = (.ok accepted', s') ∧
      Presentation.tail boundPresentation ≠ [] ∧
      Presentation.front boundPresentation = Presentation.front boundPresentation := by
  have hbound : ∃ accepted ∈
      (verify HashAlgorithm.digest trusting .empty boundPresentation).1.toOption, True := by
    decide +kernel
  have hfree : ∃ accepted ∈
      (verify HashAlgorithm.digest undemanding ⟨["n"]⟩ boundPresentation).1.toOption, True := by
    decide +kernel
  have htail : Presentation.tail boundPresentation ≠ [] := by decide +kernel
  obtain ⟨accepted, r', hv, -⟩ := exists_accepted hbound
  obtain ⟨accepted', s', hw, -⟩ := exists_accepted hfree
  exact ⟨accepted, accepted', r', s', hv, hw, htail,
    front_eq_of_tail_eq _ _ _ _ accepted accepted' _ r' _ s' hv hw htail rfl fun _ _ => rfl⟩

end Verifier

end SelectiveDisclosure
