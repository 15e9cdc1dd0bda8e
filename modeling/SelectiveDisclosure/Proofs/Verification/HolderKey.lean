import SelectiveDisclosure.Proofs.Claims.Clear
import SelectiveDisclosure.Proofs.Compact
import SelectiveDisclosure.Proofs.ReadingBack

/-!
# The key of the holder

The claim with the key of a holder is written when everything is concealed already, over any claim
of its name. So it stands in the payload in clear text, without digests in it, and no disclosures
change or remove it, whether they were issued or not.
-/

set_option autoImplicit false

namespace SelectiveDisclosure

open Json

namespace Issuer
variable {f : DigestFunction} {i : Issuer} {random : RandomSource} {claims : Members}
  {places : List Pointer} {k : Jwk} {issued : Issued}

theorem get?_confirmation_of_concealClaims {payload : Payload} {ds : List Disclosure}
    (h : i.concealClaims f random claims places (some k) = .ok (payload, ds)) :
    Members.get? payload.claims confirmationName = some (confirmation k) := by
  rw [concealClaims] at h
  split at h
  · cases h
  split at h
  · cases h
  · cases h
    exact get?_bind_some k

theorem get?_confirmation_of_issue
    (h : i.issue f random (.object claims) places (some k) = .ok issued) :
    Members.get? issued.payload.claims confirmationName = some (confirmation k) := by
  obtain ⟨members, jwt, hmembers, hconceal, -⟩ := exists_of_issue h
  cases hmembers
  exact get?_confirmation_of_concealClaims hconceal

theorem get?_confirmation_reread {payload : Payload}
    (h : Members.get? payload.claims confirmationName = some (confirmation k)) :
    Members.get? payload.reread.claims confirmationName = some (confirmation k) := by
  rw [Payload.reread, Value.get?_rereadMembers, h, Option.map_some,
    Value.reread_eq_self (readable_confirmation k).numbers]

theorem confirmationKey?_of_reveal {payload : Payload} {ds : List Disclosure}
    {revealed : Members} {ps : List Pointer}
    (hget : Members.get? payload.claims confirmationName = some (confirmation k))
    (hs : Value.Sorted (.object payload.claims))
    (hds : ∀ d ∈ ds, Value.Sorted d.concealed.value)
    (h : payload.reveal f ds = .ok (revealed, ps)) :
    Verifier.confirmationKey? revealed = some k.toPublic :=
  confirmationKey?_of_get?
    (Payload.get?_of_reveal_of_reservedIn? hs hds h rfl hget (reservedIn?_confirmation k))

theorem ofOctets_of_issue (hs : Value.Sorted (.object claims)) {holderKey : Option Jwk}
    (h : i.issue f random (.object claims) places holderKey = .ok issued) {t : Token}
    (ht : t.octets = issued.octets) {d : Jws.Decoded Octets} (hd : t.jwt.decode = .ok d)
    {payload : Payload} (hpayload : Payload.ofOctets d.payload = .ok payload) :
    payload = issued.payload.reread := by
  obtain ⟨hconceals, -, jwt, info, signature, hoctets, -, -, hdecode⟩ := issue_eq_ok hs h
  obtain ⟨hfits, -⟩ := Payload.takesOut_of_conceals (sorted_bind hs) (Nat.le_refl _) hconceals
  obtain ⟨-, -, hencoded⟩ := exists_octets_of_issue h
  have hjwt : t.jwt = jwt :=
    congrArg Parts.jwt (Token.parts_of_octets (ht.trans hoctets) hencoded)
  rw [hjwt, hdecode] at hd
  cases hd
  -- Claims that are too deep are issued, but the token cannot be read.
  by_cases hdepth : (Value.object issued.payload.claims).depth ≤ depthLimit
  · rw [Payload.ofOctets_written hfits hdepth] at hpayload
    exact (Except.ok.inj hpayload).symm
  · rw [Payload.ofOctets_written_of_deep (Nat.lt_of_not_le hdepth)] at hpayload
    cases hpayload

/-- No disclosures remove or replace the key for which a token was issued: they may be any at all,
beside the payload that was issued or behind its JWS. -/
theorem confirmationKey?_of_issue (f : DigestFunction) (i : Issuer) (random : RandomSource)
    (claims : Members) (places : List Pointer) (k : Jwk) (issued : Issued)
    (hs : Value.Sorted (.object claims))
    (h : i.issue f random (.object claims) places (some k) = .ok issued) :
    (∀ ds revealed ps, (∀ d ∈ ds, Value.Sorted d.concealed.value) →
      issued.payload.reveal f ds = .ok (revealed, ps) →
        Verifier.confirmationKey? revealed = some k.toPublic) ∧
    ∀ (t : Token) (parts : Parts) (r : Revealed), t.octets = issued.octets →
      parts.jwt = t.jwt → parts.reveal f = .ok r →
        Verifier.confirmationKey? r.claims = some k.toPublic := by
  have hget := get?_confirmation_of_issue h
  constructor
  · intro ds revealed ps hds hreveal
    have hfits := (Payload.takesOut_of_conceals (sorted_bind hs) (Nat.le_refl _)
      (issue_eq_ok hs h).1).1
    exact confirmationKey?_of_reveal hget hfits.sorted hds hreveal
  · intro t parts r ht hjwt hreveal
    rw [Parts.reveal, bind_eq_ok_iff] at hreveal
    obtain ⟨t', hdecode, hreveal⟩ := hreveal
    rw [mapError_eq_ok_iff] at hdecode
    obtain ⟨d, payload, hd, hpayload, hpart, hds⟩ := Parts.decode_eq_ok_iff.1 hdecode
    obtain rfl := ofOctets_of_issue hs h ht (hjwt ▸ hd) hpayload
    have hdisclosures := (Disclosure.map_decode_eq_ok hds).2
    have hclaims : t'.jwt.payload = issued.payload.reread := by rw [hpart]; rfl
    rw [Token.Decoded.reveal, bind_eq_ok_iff, hclaims] at hreveal
    obtain ⟨⟨revealed, ps⟩, hrevealed, hreveal⟩ := hreveal
    cases hreveal
    exact confirmationKey?_of_reveal (get?_confirmation_reread hget)
      (Payload.sorted_of_ofOctets hpayload)
      (fun e he => (Disclosure.decode_eq_ok (hdisclosures e he)).2.2) hrevealed

/-- The second draw, for a decoy, is itself a disclosure that has been written as JSON. -/
def forgingSource : RandomSource := fun n =>
  if n = 1 then Octets.ofText "[\"s12\",\"b\",null]" else List.replicate 16 (UInt8.ofNat n)

/-- A disclosure that opens a decoy, behind a token whose claims had another key. -/
theorem confirmationKey?_of_issue_forged :
    ∃ issued revealed ps,
      issue HashAlgorithm.digest ⟨.oneOctet, .sha256, 1, none⟩ forgingSource
        (.object [("a", .bool true), ("cnf", .string "k")]) [⟨"/a", by decide⟩]
        (some (.ofCurve "P-256")) = .ok issued ∧
      issued.payload.reveal HashAlgorithm.digest [.ofParts "s12" (.member "b" .null)] =
        .ok (revealed, ps) ∧
      Members.names revealed = ["b", "cnf"] ∧
      Verifier.confirmationKey? revealed = some (Jwk.ofCurve "P-256").toPublic := by
  have hsorted : Value.Sorted (.object [("a", .bool true), ("cnf", .string "k")]) := by
    refine ⟨show List.Pairwise _ _ by decide, ?_⟩
    simp [Value.Sorted, Value.SortedMembers]
  have hrun : ((issue HashAlgorithm.digest ⟨.oneOctet, .sha256, 1, none⟩ forgingSource
      (.object [("a", .bool true), ("cnf", .string "k")]) [⟨"/a", by decide⟩]
      (some (.ofCurve "P-256"))).toOption.bind fun issued =>
        (issued.payload.reveal HashAlgorithm.digest
          [.ofParts "s12" (.member "b" .null)]).toOption.map
            fun revealed => Members.names revealed.1) = some ["b", "cnf"] := by
    decide +kernel
  simp only [Option.bind_eq_some_iff, Option.map_eq_some_iff, toOption_eq_some_iff] at hrun
  obtain ⟨issued, hissue, ⟨revealed, ps⟩, hreveal, hnames⟩ := hrun
  obtain ⟨hforged, -⟩ := confirmationKey?_of_issue HashAlgorithm.digest
    ⟨.oneOctet, .sha256, 1, none⟩ forgingSource _ [⟨"/a", by decide⟩] (.ofCurve "P-256") issued
    hsorted hissue
  refine ⟨issued, revealed, ps, hissue, hreveal, hnames, hforged _ revealed ps ?_ hreveal⟩
  exact List.forall_mem_singleton.2 trivial

end Issuer

end SelectiveDisclosure
