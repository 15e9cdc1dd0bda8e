import SelectiveDisclosure.Proofs.Claims.Bookkeeping
import SelectiveDisclosure.Proofs.Verification.Binding

/-!
# Bookkeeping in accepted claims

The claims of an accepted presentation have no member about digests at any depth. They have a
placeholder in an array exactly if an item of the payload or of a disclosure leaves one, as a
disclosed item does that is a placeholder itself.
-/

set_option autoImplicit false

namespace SelectiveDisclosure

open Json Reveal

namespace Verifier

/-- Accepted claims keep no bookkeeping, but a placeholder for each item that leaves one. -/
theorem bookkeeping_of_verify (f : DigestFunction) (v : Verifier) (bs : Octets)
    (registry registry' : NonceRegistry) (verified : Verified)
    (h : v.verify f registry bs = (.ok verified, registry')) :
    ∃ parts d payload ds, v.Accepts f bs verified parts d payload ds ∧
      Value.Everywhere Value.LacksBookkeeping (.object verified.claims) ∧
      (Value.Everywhere Value.LacksPlaceholders (.object verified.claims) ↔
        ∀ u ∈ payload.items ds,
          ¬LeavesPlaceholder (fun g => ∀ d ∈ ds, digestUnder f payload.algorithm d ≠ g) u) := by
  obtain ⟨parts, d, payload, ds, ha⟩ := accepts_of_verify h
  obtain ⟨ps, hreveal, -⟩ := ha.revealed
  have hdecode : ∀ e ∈ ds, Disclosure.decode e.encoded = .ok e :=
    (Disclosure.map_decode_eq_ok ha.disclosures).2
  exact ⟨parts, d, payload, ds, ha, Payload.bookkeeping_of_reveal
    (Payload.sorted_of_ofOctets ha.content)
    (fun e he => (Disclosure.decode_eq_ok (hdecode e he)).2.2)
    (fun e he _ _ hname => Disclosure.isReserved_of_decode (hdecode e he) hname) hreveal⟩

/-- One disclosed item, which is `{"...":"x"}`. -/
def placeholderPresentation : Octets := Octets.ofText <|
  "eyJhbGciOiJFUzI1NiJ9.eyJfc2RfYWxnIjoic2hhLTI1NiIsImwiOlt7Ii4uLiI6IjFER3B0WW85QjI1X3ZmVEJ6U" ++
  "WhLX0x1YmxuRFJfV1gxSDdidXk2VjNfRTQifV19.AA~WyJzIix7Ii4uLiI6IngifV0~"

theorem verify_placeholderPresentation :
    ∃ verified registry,
      verify HashAlgorithm.digest undemanding .empty placeholderPresentation =
        (.ok verified, registry) ∧
      ¬Value.Everywhere Value.LacksPlaceholders (.object verified.claims) :=
  exists_accepted (by decide +kernel)

theorem bookkeeping_placeholderPresentation :
    ∃ verified registry,
      verify HashAlgorithm.digest undemanding .empty placeholderPresentation =
        (.ok verified, registry) ∧
      ∃ parts d payload ds,
        undemanding.Accepts HashAlgorithm.digest placeholderPresentation verified parts d payload ds ∧
        Value.Everywhere Value.LacksBookkeeping (.object verified.claims) ∧
        ∃ u ∈ payload.items ds, LeavesPlaceholder
          (fun g => ∀ d ∈ ds, digestUnder HashAlgorithm.digest payload.algorithm d ≠ g) u := by
  obtain ⟨verified, registry, hv, hleft⟩ := verify_placeholderPresentation
  obtain ⟨parts, d, payload, ds, ha, hlacks, hiff⟩ :=
    bookkeeping_of_verify _ _ _ _ registry verified hv
  rw [hiff, not_forall₂] at hleft
  obtain ⟨u, hu, hleft⟩ := hleft
  exact ⟨verified, registry, hv, parts, d, payload, ds, ha, hlacks, u, hu, not_not.1 hleft⟩

theorem claims_with_placeholder :
    ∃ verified registry,
      verify HashAlgorithm.digest undemanding .empty placeholderPresentation =
        (.ok verified, registry) ∧
      ¬(Value.Everywhere Value.LacksBookkeeping (.object verified.claims) ∧
        Value.Everywhere Value.LacksPlaceholders (.object verified.claims)) := by
  obtain ⟨verified, registry, hv, hleft⟩ := verify_placeholderPresentation
  exact ⟨verified, registry, hv, fun h => hleft h.2⟩

end Verifier

end SelectiveDisclosure
