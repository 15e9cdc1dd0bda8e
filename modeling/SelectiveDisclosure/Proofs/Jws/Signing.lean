import SelectiveDisclosure.Jws.Signing
import SelectiveDisclosure.Proofs.Jws.Decoding
import SelectiveDisclosure.Proofs.Jws.Header

/-!
# What is signed is decoded

A JWS that is put together of a header, a payload and a signature decodes to these three, whatever
the payload, and is put together whenever the signature is not empty.
-/

set_option autoImplicit false

namespace SelectiveDisclosure

open Json

namespace Jws
variable {h : Header} {payload signature : Octets} {j : Jws}

theorem spells_assembled (ho : h.OthersRead) (payload : Octets) (hne : signature ≠ []) :
    Spells (h.signingOctets payload ++ point :: Base64Url.encode signature) h.written.octets
      ⟨h.signingOctets payload, h, payload, signature⟩ := by
  constructor
  case octets => rfl
  case signed => rfl
  case header => exact ho.readOctets?_written
  case signature_ne_nil => exact hne

theorem exists_assembled (ho : h.OthersRead) (payload : Octets) (hne : signature ≠ []) :
    ∃ j, assemble? (h.signingOctets payload) signature = some j ∧
      j.decode = .ok ⟨h.signingOctets payload, h, payload, signature⟩ := by
  obtain ⟨j, hj, hd⟩ := exists_decode_iff.2 ⟨_, spells_assembled ho payload hne⟩
  exact ⟨j, hj, hd⟩

theorem signature_ne_nil_of_assemble? {signingOctets : Octets}
    (h : assemble? signingOctets signature = some j) : signature ≠ [] := by
  rintro rfl
  have hoctets := ofOctets?_eq_some_iff.1 h
  have hseg := j.segments
  obtain ⟨b, hb⟩ := Option.isSome_iff_exists.1
    (List.getLast?_isSome.2 hseg.signature_ne_nil)
  have hlast : j.octets.getLast? = some b := by
    rw [j.octets_eq, List.getLast?_append, List.getLast?_cons, hb]
    rfl
  rw [hoctets, Base64Url.encode, List.getLast?_append, List.getLast?_singleton, Option.some_or,
    Option.some.injEq] at hlast
  have hsym := List.all_eq_true.1 hseg.isText_signature b (List.mem_of_getLast? hb)
  rw [← hlast, not_isSymbol_point] at hsym
  cases hsym

theorem decode_assembled (ho : h.OthersRead)
    (hj : assemble? (h.signingOctets payload) signature = some j) :
    j.decode = .ok ⟨h.signingOctets payload, h, payload, signature⟩ := by
  -- There is one JWS of these octets, so it is the one that is known to be decoded.
  obtain ⟨j', hj', hd⟩ := exists_assembled ho payload (signature_ne_nil_of_assemble? hj)
  obtain rfl : j = j' := Option.some.inj (hj.symm.trans hj')
  exact hd

end Jws

namespace Signer
variable {s : Signer} {tokenType : Option String} {payload : Octets}

theorem othersRead_header (info : SignerInfo) (tokenType : Option String) :
    (header info tokenType).OthersRead := by
  constructor
  · intro m hm
    cases hm
  · exact Value.sorted_object_iff.2 ⟨List.Pairwise.nil, fun m hm => absurd hm List.not_mem_nil⟩
  · exact (Value.readable_object_iff (d := 0).2 fun m hm => absurd hm List.not_mem_nil).mono
      (by decide)

/-- A signed JWS decodes to the header of the signer, the payload, and the signature that the
signer has made of the signed octets. -/
theorem signPayload_eq_ok {j : Jws} (h : s.signPayload tokenType payload = .ok j) :
    ∃ info signature, s.info = .ok info ∧
      s.sign ((header info tokenType).signingOctets payload) = .ok signature ∧
      j.decode = .ok ⟨(header info tokenType).signingOctets payload, header info tokenType,
        payload, signature⟩ := by
  simp only [signPayload, bind_eq_ok_iff] at h
  obtain ⟨info, hinfo, signature, hsign, h⟩ := h
  split at h
  · next j' hj =>
    cases h
    exact ⟨info, signature, hinfo, hsign,
      Jws.decode_assembled (othersRead_header info tokenType) hj⟩
  · cases h

theorem exists_signPayload {info : SignerInfo} {signature : Octets} (hinfo : s.info = .ok info)
    (hsign : s.sign ((header info tokenType).signingOctets payload) = .ok signature)
    (hne : signature ≠ []) : ∃ j, s.signPayload tokenType payload = .ok j := by
  obtain ⟨j, hj, -⟩ := Jws.exists_assembled (othersRead_header info tokenType) payload hne
  refine ⟨j, ?_⟩
  simp only [signPayload, bind_eq_ok_iff]
  refine ⟨info, hinfo, signature, hsign, ?_⟩
  rw [hj]
  rfl

/-- A signer that answers signs a payload exactly if its signature is not empty. The JWS has the
signature behind the octets that the signer was given, and is decoded to these octets, to the
header with the algorithm, the key id and the type, and nothing else, to the payload and to the
signature. -/
theorem signPayload_iff_and_decode (s : Signer) (tokenType : Option String) (payload : Octets)
    (info : SignerInfo) (signature : Octets) (hinfo : s.info = .ok info)
    (hsign : s.sign ((header info tokenType).signingOctets payload) = .ok signature) :
    ((∃ j, s.signPayload tokenType payload = .ok j) ↔ signature ≠ []) ∧
      ∀ j, s.signPayload tokenType payload = .ok j →
        j.octets = (header info tokenType).signingOctets payload ++
          Jws.point :: Base64Url.encode signature ∧
        Jws.isCompact j.octets = true ∧
        j.decode = .ok ⟨(header info tokenType).signingOctets payload,
          ⟨info.algorithm, none, info.keyId, tokenType, none, none, []⟩, payload, signature⟩ := by
  have hdecode : ∀ j, s.signPayload tokenType payload = .ok j →
      j.decode = .ok ⟨(header info tokenType).signingOctets payload, header info tokenType,
        payload, signature⟩ := by
    intro j hj
    obtain ⟨info', signature', hinfo', hsign', hd⟩ := signPayload_eq_ok hj
    obtain rfl : info = info' := Except.ok.inj (hinfo.symm.trans hinfo')
    obtain rfl : signature = signature' := Except.ok.inj (hsign.symm.trans hsign')
    exact hd
  refine ⟨⟨?_, exists_signPayload hinfo hsign⟩, fun j hj => ?_⟩
  · rintro ⟨j, hj⟩
    obtain ⟨json, hspells⟩ :=
      Jws.exists_decode_iff.1 ⟨j, Jws.ofOctets?_eq_some_iff.2 rfl, hdecode j hj⟩
    exact hspells.signature_ne_nil
  · have hoctets := Jws.octets_of_decode (hdecode j hj)
    exact ⟨hoctets, j.valid, hdecode j hj⟩

theorem signPayload_iff_and_decode_escaped :
    ∃ j, signPayload ⟨.ok ⟨some "~.\"", .es256⟩, fun _ => .ok [0]⟩ (some "kb+jwt") [97, 126] =
        .ok j ∧
      j.decode = .ok ⟨(header ⟨some "~.\"", .es256⟩ (some "kb+jwt")).signingOctets [97, 126],
        ⟨.es256, none, some "~.\"", some "kb+jwt", none, none, []⟩, [97, 126], [0]⟩ := by
  obtain ⟨hiff, hdecode⟩ := signPayload_iff_and_decode
    ⟨.ok ⟨some "~.\"", .es256⟩, fun _ => .ok [0]⟩ (some "kb+jwt") [97, 126]
    ⟨some "~.\"", .es256⟩ [0] rfl rfl
  obtain ⟨j, hj⟩ := hiff.2 (List.cons_ne_nil 0 [])
  exact ⟨j, hj, (hdecode j hj).2.2⟩

end Signer

end SelectiveDisclosure
