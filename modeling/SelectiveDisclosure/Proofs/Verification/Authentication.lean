import SelectiveDisclosure.Proofs.Claims.Clear
import SelectiveDisclosure.Proofs.Key.Resolution
import SelectiveDisclosure.Proofs.Verification.Binding

/-!
# The issuer of accepted claims

The key that checks a token is found under the issuer that stands in its payload, before anything is
revealed. No disclosure changes that claim, so an accepted presentation names the issuer for which
the key was inserted.
-/

set_option autoImplicit false

namespace SelectiveDisclosure

open Json Reveal

namespace IssuerKeys

theorem isPublic_ofInsertions (insertions : List (String × Jwk)) :
    ∀ e ∈ (ofInsertions insertions).entries, e.2.isPublic = true := by
  have hfold : ∀ keys : IssuerKeys, (∀ e ∈ keys.entries, e.2.isPublic = true) →
      ∀ e ∈ (insertions.foldl (fun keys e => keys.insert e.1 e.2) keys).entries,
        e.2.isPublic = true := by
    induction insertions with
    | nil => exact fun _ h => h
    | cons e r ih =>
      intro keys h
      rw [List.foldl_cons]
      exact ih _ (List.forall_mem_append.2 ⟨h, List.forall_mem_singleton.2 rfl⟩)
  exact hfold empty fun _ h => nomatch h

end IssuerKeys

namespace Verifier
variable {f : DigestFunction} {v : Verifier} {bs : Octets} {verified : Verified} {parts : Parts}
  {d : Jws.Decoded Octets} {payload : Payload} {ds : List Disclosure} {name : String} {w : Value}

theorem Accepts.get?_claims (h : v.Accepts f bs verified parts d payload ds)
    (hname : isReserved name = false) (hget : Members.get? payload.claims name = some w)
    (hw : IsScalar w) : Members.get? verified.claims name = some w := by
  obtain ⟨ps, hreveal, -⟩ := h.revealed
  have hdecode := (Disclosure.map_decode_eq_ok h.disclosures).2
  exact Payload.get?_of_reveal_of_isScalar (Payload.sorted_of_ofOctets h.content)
    (fun e he => (Disclosure.decode_eq_ok (hdecode e he)).2.2) hreveal hname hget hw

/-- A verifier with a store of keys accepts claims only with an issuer, and only signed with the key
that the store chooses for this issuer. -/
theorem issuer_of_verify (f : DigestFunction) (v : Verifier) (insertions : List (String × Jwk))
    (registry registry' : NonceRegistry) (bs : Octets) (verified : Verified)
    (h : ({ v with resolver := (IssuerKeys.ofInsertions insertions).resolver } : Verifier).verify
      f registry bs = (.ok verified, registry')) :
    (∃ (parts : Parts) (d : Jws.Decoded Octets) (issuer : String) (k : Jwk),
      bs = parts.octets ∧ verified.header = d.header ∧
      Members.get? verified.claims "iss" = some (.string issuer) ∧
      IssuerKeys.Chooses insertions issuer verified.header.keyId k ∧
      parts.jwt.SignedBy v.check d k.toPublic) ∧
    ∀ e ∈ (IssuerKeys.ofInsertions insertions).entries, e.2.isPublic = true := by
  obtain ⟨parts, d, payload, ds, ha⟩ := accepts_of_verify h
  obtain ⟨named, k, hnamed, hk, hsigned⟩ := ha.issued
  obtain ⟨issuer, inserted, hissuer, hchooses, rfl⟩ :=
    IssuerKeys.resolver_ofInsertions_eq_ok_iff.1 hk
  refine ⟨⟨parts, d, issuer, inserted, ha.octets, ha.header, ?_, ?_, hsigned⟩,
    IssuerKeys.isPublic_ofInsertions insertions⟩
  · exact ha.get?_claims rfl ((hnamed issuer).1 hissuer) trivial
  · rw [ha.header]
    exact hchooses

/-- Keys of two issuers; two of those of `i` have the key id `b`, the first a secret number. -/
def severalKeys : List (String × Jwk) :=
  [("i", (Jwk.ofCurve "P-256").withKeyId "a"), ("j", (Jwk.ofCurve "P-384").withKeyId "b"),
    ("i", { Jwk.ofCurve "P-256" with keyId := some "b", secret := some [1] }),
    ("i", (Jwk.ofCurve "P-384").withKeyId "b")]

/-- One disclosed member, the issuer `i` and the key id `b`. -/
def issuerPresentation : Octets := Octets.ofText <|
  "eyJhbGciOiJFUzI1NiIsImtpZCI6ImIifQ.eyJfc2QiOlsiQkdUeHlVZUZja0JqNDV3a3ZGaHl0UXpURWxOOTg1cTQ" ++
  "4czU4OURselpLdyJdLCJfc2RfYWxnIjoic2hhLTI1NiIsImlzcyI6ImkifQ.AA~WyJzIiwiYSIsMV0~"

def storeVerifier : Verifier :=
  { undemanding with resolver := (IssuerKeys.ofInsertions severalKeys).resolver }

theorem issuer_issuerPresentation :
    ∃ verified registry,
      storeVerifier.verify HashAlgorithm.digest .empty issuerPresentation =
        (.ok verified, registry) ∧
      Members.names verified.claims = ["a", "iss"] ∧
      (∃ (parts : Parts) (d : Jws.Decoded Octets) (issuer : String) (k : Jwk),
        issuerPresentation = parts.octets ∧ verified.header = d.header ∧
        Members.get? verified.claims "iss" = some (.string issuer) ∧
        IssuerKeys.Chooses severalKeys issuer verified.header.keyId k ∧
        parts.jwt.SignedBy undemanding.check d k.toPublic) ∧
      ∀ e ∈ (IssuerKeys.ofInsertions severalKeys).entries, e.2.isPublic = true := by
  have hok : ∃ verified ∈
      (storeVerifier.verify HashAlgorithm.digest .empty issuerPresentation).1.toOption,
        Members.names verified.claims = ["a", "iss"] := by
    decide +kernel
  obtain ⟨verified, registry, hv, hnames⟩ := exists_accepted hok
  exact ⟨verified, registry, hv, hnames, issuer_of_verify HashAlgorithm.digest undemanding
    severalKeys .empty registry issuerPresentation verified hv⟩

end Verifier

end SelectiveDisclosure
