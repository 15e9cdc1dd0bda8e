import SelectiveDisclosure.Proofs.Base64Url
import SelectiveDisclosure.Proofs.Outcome
import SelectiveDisclosure.Proofs.Token.Framing

/-!
# Decoding loses nothing

Three octet strings are spelled in one way only as a JWS, and nothing but this spelling is decoded.
So a decoded JWS is encoded as it was, and two texts never decode to the same signed octets and
signature.
-/

set_option autoImplicit false

namespace SelectiveDisclosure

namespace Jws
variable {j : Jws} {d : Decoded Octets} {bs json : Octets}

theorem ofOctets?_eq_some_iff : ofOctets? bs = some j ↔ j.octets = bs := by
  rw [ofOctets?]
  constructor
  · intro h
    split at h
    · cases h
      rfl
    · cases h
  · rintro rfl
    rw [dif_pos j.valid]

/-! ## Headers -/

namespace Header

theorem readOctets?_ne_nil {h : Header} (hread : (Json.Value.readOctets? json).bind ofJson? = some h) :
    json ≠ [] := by
  rintro rfl
  cases hread

theorem decode_eq_ok_iff {h : Header} :
    decode bs = .ok h ↔
      ∃ json, bs = Base64Url.encode json ∧ (Json.Value.readOctets? json).bind ofJson? = some h := by
  rw [decode]
  cases hjson : Base64Url.decode bs with
  | error e =>
    constructor
    · intro h
      cases h
    · rintro ⟨json, hbs, -⟩
      rw [Base64Url.decode_eq_ok_iff.2 hbs] at hjson
      cases hjson
  | ok json =>
    have hbs := Base64Url.decode_eq_ok_iff.1 hjson
    constructor
    · intro h
      refine ⟨json, hbs, ?_⟩
      simp only at h
      split at h
      · next hread =>
        cases h
        exact hread
      · cases h
    · rintro ⟨json', hbs', hread⟩
      rw [Base64Url.decode_eq_ok_iff.2 hbs'] at hjson
      cases hjson
      simp [hread]

end Header

/-! ## Parts -/

theorem decode_eq_ok_iff :
    j.decode = .ok d ↔ j.signingOctets = d.signingOctets ∧ Header.decode j.header = .ok d.header ∧
      Base64Url.decode j.payload = .ok d.payload ∧
      Base64Url.decode j.signature = .ok d.signature := by
  simp only [decode, bind_eq_ok_iff, mapError_eq_ok_iff]
  constructor
  · rintro ⟨header, hheader, payload, hpayload, signature, hsignature, h⟩
    cases h
    exact ⟨rfl, hheader, hpayload, hsignature⟩
  · rintro ⟨hsigning, hheader, hpayload, hsignature⟩
    refine ⟨d.header, hheader, d.payload, hpayload, d.signature, hsignature, ?_⟩
    rw [hsigning]
    rfl

/-- The signed octets stand in front of the last point as they were, and the signature behind it
has no other spelling. -/
theorem octets_of_decode (h : j.decode = .ok d) :
    j.octets = d.signingOctets ++ point :: Base64Url.encode d.signature := by
  obtain ⟨hsigning, -, -, hsignature⟩ := decode_eq_ok_iff.1 h
  rw [j.octets_eq, hsigning, Base64Url.decode_eq_ok_iff.1 hsignature]

theorem reencode?_of_decode (h : j.decode = .ok d) : d.reencode? = some j :=
  ofOctets?_eq_some_iff.2 (octets_of_decode h)

/-- The octets spell the text of a header, a payload and a signature. -/
structure Spells (bs json : Octets) (d : Decoded Octets) : Prop where
  octets : bs = d.signingOctets ++ point :: Base64Url.encode d.signature
  signed : d.signingOctets = Base64Url.encode json ++ point :: Base64Url.encode d.payload
  header : (Json.Value.readOctets? json).bind Header.ofJson? = some d.header
  signature_ne_nil : d.signature ≠ []

theorem Spells.segments (h : Spells bs json d) :
    Segments bs (Base64Url.encode json) (Base64Url.encode d.payload)
      (Base64Url.encode d.signature) := by
  constructor
  case octets =>
    rw [h.octets, h.signed]
    simp
  case isText_header => exact Base64Url.isText_encode json
  case isText_payload => exact Base64Url.isText_encode d.payload
  case isText_signature => exact Base64Url.isText_encode d.signature
  case header_ne_nil =>
    exact fun hnil => Header.readOctets?_ne_nil h.header (Base64Url.encode_eq_nil_iff.1 hnil)
  case signature_ne_nil =>
    exact fun hnil => h.signature_ne_nil (Base64Url.encode_eq_nil_iff.1 hnil)

theorem exists_decode_iff :
    (∃ j, ofOctets? bs = some j ∧ j.decode = .ok d) ↔ ∃ json, Spells bs json d := by
  constructor
  · rintro ⟨j, hj, hd⟩
    obtain ⟨hsigning, hheader, hpayload, hsignature⟩ := decode_eq_ok_iff.1 hd
    obtain ⟨json, hjson, hread⟩ := Header.decode_eq_ok_iff.1 hheader
    have hseg := j.segments
    refine ⟨json, ?_, ?_, hread, ?_⟩
    · rw [← ofOctets?_eq_some_iff.1 hj]
      exact octets_of_decode hd
    · rw [← hsigning, (parts_of_segments hseg).2.2.2, hjson,
        Base64Url.decode_eq_ok_iff.1 hpayload]
    · intro hnil
      apply hseg.signature_ne_nil
      rw [Base64Url.decode_eq_ok_iff.1 hsignature, hnil]
      rfl
  · rintro ⟨json, h⟩
    have hseg := h.segments
    let j : Jws := ⟨bs, isCompact_iff.2 ⟨_, _, _, hseg⟩⟩
    obtain ⟨hheader, hpayload, hsignature, hsigning⟩ := parts_of_segments (j := j) hseg
    refine ⟨j, ofOctets?_eq_some_iff.2 rfl, decode_eq_ok_iff.2 ⟨?_, ?_, ?_, ?_⟩⟩
    · rw [hsigning, h.signed]
    · rw [hheader]
      exact Header.decode_eq_ok_iff.2 ⟨json, rfl, h.header⟩
    · rw [hpayload, Base64Url.decode_encode]
    · rw [hsignature, Base64Url.decode_encode]

/-- A decoded JWS is encoded as it was. So no two of them have the same signed octets and signature,
and the octets that are decoded are those that spell what they are decoded to. -/
theorem reencode?_eq_some_and_spells :
    (∀ (j : Jws) (d : Decoded Octets), j.decode = .ok d → d.reencode? = some j) ∧
      (∀ (j j' : Jws) (d d' : Decoded Octets), j.decode = .ok d → j'.decode = .ok d' →
        d.signingOctets = d'.signingOctets → d.signature = d'.signature → j = j') ∧
      ∀ (bs : Octets) (d : Decoded Octets),
        (∃ j, ofOctets? bs = some j ∧ j.decode = .ok d) ↔ ∃ json, Spells bs json d := by
  refine ⟨fun j d => reencode?_of_decode, ?_, fun bs d => exists_decode_iff⟩
  intro j j' d d' hd hd' hsigning hsignature
  have hsame : d.reencode? = d'.reencode? := by
    rw [Decoded.reencode?, Decoded.reencode?, hsigning, hsignature]
  rw [reencode?_of_decode hd, reencode?_of_decode hd'] at hsame
  exact Option.some.inj hsame

/-- No algorithm, and one octet for a payload and one for a signature. -/
theorem reencode?_unsigned :
    ∃ j d json, ofOctets? (Octets.ofText "eyJhbGciOiJub25lIn0.YQ.AA") = some j ∧
      j.decode = .ok d ∧ d.payload = [97] ∧ d.reencode? = some j ∧
      Spells (Octets.ofText "eyJhbGciOiJub25lIn0.YQ.AA") json d := by
  have hrun : ((ofOctets? (Octets.ofText "eyJhbGciOiJub25lIn0.YQ.AA")).bind fun j =>
      j.decode.toOption.map fun d => d.payload) = some [97] := by
    decide +kernel
  simp only [Option.bind_eq_some_iff, Option.map_eq_some_iff, toOption_eq_some_iff] at hrun
  obtain ⟨j, hj, d, hd, hpayload⟩ := hrun
  obtain ⟨hreencode, -, hspells⟩ := reencode?_eq_some_and_spells
  obtain ⟨json, hjson⟩ := (hspells _ d).1 ⟨j, hj, hd⟩
  exact ⟨j, d, json, hj, hd, hpayload, hreencode j d hd, hjson⟩

/-- The last symbol has a stray bit. -/
example : ((ofOctets? (Octets.ofText "eyJhbGciOiJub25lIn0..AB")).bind fun j =>
    j.decode.toOption.map fun d => d.signature) = none := by
  decide +kernel

end Jws

end SelectiveDisclosure
