import SelectiveDisclosure.Proofs.Claims.Rereading
import SelectiveDisclosure.Proofs.Issuance
import SelectiveDisclosure.Proofs.KeyBinding
import SelectiveDisclosure.Proofs.Presenting
import SelectiveDisclosure.Proofs.Verification.Soundness

/-!
# Issued, presented and verified

What an issuer has issued and a holder presents is accepted, and the verifier gets the claims
without the concealed values that the holder did not show.
-/

set_option autoImplicit false

namespace SelectiveDisclosure

open Json

/-! ## Signatures -/

/-- The check accepts under the key what the signer signs, and the key is bound to no algorithm but
that of the signer. -/
structure Signer.TrustedBy (s : Signer) (check : SignatureCheck) (k : Jwk) : Prop where
  accepted : ∀ info bs signature, s.info = .ok info → s.sign bs = .ok signature →
    check info.algorithm bs signature k = .ok true
  pinned : ∀ info a, s.info = .ok info → k.algorithm = some a → a = info.algorithm

def Signer.oneOctet : Signer :=
  ⟨.ok ⟨none, .es256⟩, fun _ => .ok [0]⟩

theorem Signer.signs_oneOctet : Signer.oneOctet.Signs :=
  ⟨⟨_, rfl⟩, fun _ => ⟨_, rfl, List.cons_ne_nil _ _⟩⟩

theorem Signer.trustedBy_of_free {s : Signer} {check : SignatureCheck} {k : Jwk}
    (hcheck : ∀ a bs signature, check a bs signature k = .ok true) (hk : k.algorithm = none) :
    s.TrustedBy check k := by
  refine ⟨fun info bs signature _ _ => hcheck info.algorithm bs signature, fun info a _ ha => ?_⟩
  rw [hk] at ha
  cases ha

theorem Signer.TrustedBy.verify {α : Type} {s : Signer} {check : SignatureCheck} {k : Jwk}
    (h : s.TrustedBy check k) {info : SignerInfo} {bs signature : Octets}
    (hinfo : s.info = .ok info) (hsign : s.sign bs = .ok signature) (tokenType : Option String)
    (payload : α) :
    (⟨bs, header info tokenType, payload, signature⟩ : Jws.Decoded α).verify check k = .ok true :=
  Jws.Decoded.verify_eq_ok_true_iff.2
    ⟨rfl, fun a ha => h.pinned info a hinfo ha, h.accepted info bs signature hinfo hsign⟩

namespace Verifier
variable {f : DigestFunction} {v : Verifier}

/-! ## Key bindings -/

theorem checkRecent_of_isRecent {b : KeyBinding} {t : Instant}
    (ht : b.issuedAt.toInstant? = some t) (h : v.clock.IsRecent v.maxAge t) :
    v.checkRecent b = .ok () := by
  rw [checkRecent, bind_eq_ok_iff]
  refine ⟨t, instantOf_eq_ok_iff.2 ht, ?_⟩
  rw [Clock.isRecent?_eq_some_true_iff.2 h]
  rfl

theorem checkLifetime_of_absent {b : KeyBinding} (hstart : b.notBefore = none)
    (hstop : b.expiresAt = none) : v.checkLifetime b = .ok () := by
  rw [checkLifetime, hstart, hstop]
  rfl

theorem decodeKeyBinding_of_signed {k : Jwk} {jwt : Jws} {d : Jws.Decoded Octets} {b : KeyBinding}
    (hd : jwt.decode = .ok d) (hverify : d.verify v.check k = .ok true)
    (htype : d.header.tokenType = some KeyBinding.tokenType)
    (hcontent : KeyBinding.ofOctets? d.payload = some b) :
    v.decodeKeyBinding k jwt = .ok b := by
  rw [decodeKeyBinding, bind_eq_ok_iff]
  refine ⟨d, mapError_eq_ok_iff.2 hd, ?_⟩
  rw [if_neg (not_not_intro htype), bind_eq_ok_iff]
  refine ⟨(), checkSigned_eq_ok_iff.2 hverify, ?_⟩
  rw [hcontent]
  rfl

/-- What the policy asks for is the challenge that the holder got, if any, and this is recent. -/
structure Expects (v : Verifier) (challenge : Option Challenge) : Prop where
  challenged : ∀ p, v.policy = some p → ∃ c, challenge = some c ∧ c.audience = p.audience ∧
    c.nonce = p.nonce ∧ p.consumesNonce = false
  recent : ∀ c, challenge = some c →
    ∃ t, c.issuedAt.toInstant? = some t ∧ v.clock.IsRecent v.maxAge t

theorem checkChallenge_of_eq {b : KeyBinding} {p : KeyBindingPolicy}
    (haud : b.audience = p.audience) (hnonce : b.nonce = p.nonce) :
    checkChallenge b p = .ok () := by
  rw [checkChallenge, if_neg (not_not_intro haud), if_neg (not_not_intro hnonce)]

theorem checkKeyBinding_of_expects {c : Challenge} (h : v.Expects (some c)) {r : Revealed}
    {front : Octets} {jwt : Jws} {k : Jwk} (hk : confirmationKey? r.claims = some k)
    (hb : v.decodeKeyBinding k jwt = .ok (c.keyBinding (f r.digestAlgorithm front))) :
    v.checkKeyBinding f r front jwt = .ok () := by
  obtain ⟨t, ht, hrecent⟩ := h.recent c rfl
  refine checkKeyBinding_eq_ok_iff.2 ⟨k, _, hk, hb, rfl, fun p hp => ?_,
    checkRecent_of_isRecent ht hrecent, fun p hp hperiod => checkLifetime_of_absent rfl rfl⟩
  obtain ⟨c', hc, haud, hnonce, -⟩ := h.challenged p hp
  cases hc
  exact checkChallenge_of_eq haud hnonce

theorem hasInstants_keyBinding {c : Challenge} {t : Instant} (ht : c.issuedAt.toInstant? = some t)
    (digest : String) : (c.keyBinding digest).HasInstants where
  issuedAt := Option.isSome_iff_exists.2 ⟨t, ht⟩
  expiresAt d hd := by cases hd
  notBefore d hd := by cases hd

theorem checkBinding_of_answers {holder : Signer} {r : Revealed} {p : Presentation}
    {challenge : Option Challenge} (hexpects : v.Expects challenge)
    (hanswers : Answers f holder r.digestAlgorithm p.token.octets challenge p.keyBinding)
    (hkey : challenge.isSome = true →
      ∃ k, confirmationKey? r.claims = some k ∧ holder.TrustedBy v.check k) :
    v.checkBinding f r p = .ok challenge.isSome := by
  rw [checkBinding]
  generalize p.keyBinding = kb at hanswers
  cases hanswers with
  | unbound =>
    cases hp : v.policy with
    | none => rfl
    | some q =>
      obtain ⟨c, hc, -⟩ := hexpects.challenged q hp
      cases hc
  | @bound c jwt hsigned =>
    obtain ⟨k, hk, htrusted⟩ := hkey rfl
    obtain ⟨info, signature, hinfo, hsign, hdecode⟩ := Signer.signPayload_eq_ok hsigned
    obtain ⟨t, ht, -⟩ := hexpects.recent c rfl
    have hbinding : v.decodeKeyBinding k jwt =
        .ok (c.keyBinding (f r.digestAlgorithm p.token.octets)) :=
      decodeKeyBinding_of_signed hdecode (htrusted.verify hinfo hsign _ _) rfl
        (KeyBinding.ofOctets?_written (hasInstants_keyBinding ht _))
    simp only
    rw [bind_eq_ok_iff]
    exact ⟨(), checkKeyBinding_of_expects hexpects hk hbinding, rfl⟩

/-! ## Presentations -/

theorem checkDates_of_absent {claims : Members} (hnbf : Members.get? claims "nbf" = none)
    (hexp : Members.get? claims "exp" = none) : v.checkDates claims = .ok () := by
  rw [checkDates, dateClaim, hnbf, dateClaim, hexp]
  rfl

theorem examine_of_parts {jwt : Jws} {d : Jws.Decoded Octets} {payload : Payload}
    {ds : List Disclosure} {claims : Members} {ps : List Pointer}
    (h : Reads f jwt d payload ds claims ps) (v : Verifier) (kb : Option Jws) :
    ∃ (r : Revealed) (p : Presentation), r.claims = claims ∧ r.algorithm = payload.algorithm ∧
      p.parts = ⟨jwt, ds.map Disclosure.encoded, kb⟩ ∧
      v.examine f (Parts.octets ⟨jwt, ds.map Disclosure.encoded, kb⟩) =
        (v.checkIssuer (d.withPayload payload) >>= fun _ =>
          v.checkBinding f r p >>= fun bound => v.checkDates claims >>= fun _ =>
            .ok ⟨r.jwt.header, claims, bound, r.disclosures⟩) := by
  obtain ⟨p, hp, hparts⟩ := Presentation.exists_ofOctets?
    ⟨jwt, ds.map Disclosure.encoded, kb⟩ h.isEncoded
  obtain ⟨r, hreveal, hclaims, -, halgorithm, -⟩ := h.exists_reveal
  refine ⟨r, p, hclaims, halgorithm, hparts, ?_⟩
  rw [examine, hp]
  simp only
  rw [hparts, h.decode_parts kb]
  show (v.checkIssuer (d.withPayload payload) >>= _) = _
  rw [hreveal, ← hclaims]
  rfl

theorem examine_of_reads {jwt : Jws} {d : Jws.Decoded Octets} {payload : Payload}
    {ds : List Disclosure} {claims : Members} {ps : List Pointer} {kb : Option Jws}
    {challenge : Option Challenge} {holder : Signer} {k : Jwk}
    (h : Reads f jwt d payload ds claims ps)
    (hk : v.resolver (issuerOf payload.claims) d.header.keyId = .ok k)
    (hverify : d.verify v.check k = .ok true)
    (hnbf : Members.get? claims "nbf" = none) (hexp : Members.get? claims "exp" = none)
    (hexpects : v.Expects challenge)
    (hanswers : Answers f holder (payload.algorithm.getD .sha256)
      (Parts.octets ⟨jwt, ds.map Disclosure.encoded, none⟩) challenge kb)
    (hkey : challenge.isSome = true →
      ∃ k, confirmationKey? claims = some k ∧ holder.TrustedBy v.check k) :
    ∃ verified, v.examine f (Parts.octets ⟨jwt, ds.map Disclosure.encoded, kb⟩) = .ok verified ∧
      verified.claims = claims ∧ verified.keyBindingVerified = challenge.isSome := by
  obtain ⟨r, p, hclaims, halgorithm, hparts, hexamine⟩ := examine_of_parts h v kb
  obtain ⟨-, hfront, -⟩ := p.octets_parts
  have hkb : p.keyBinding = kb := congrArg Parts.keyBinding hparts
  have hissuer : v.checkIssuer (d.withPayload payload) = .ok () := by
    rw [checkIssuer, bind_eq_ok_iff]
    exact ⟨k, mapError_eq_ok_iff.2 hk, checkSigned_eq_ok_iff.2 hverify⟩
  have hbinding : v.checkBinding f r p = .ok challenge.isSome := by
    refine checkBinding_of_answers hexpects ?_ (hclaims.symm ▸ hkey)
    rw [Revealed.digestAlgorithm, halgorithm, hfront, hparts, hkb]
    exact hanswers
  refine ⟨⟨r.jwt.header, claims, challenge.isSome, r.disclosures⟩, ?_, rfl, rfl⟩
  rw [hexamine, hissuer, hbinding, checkDates_of_absent hnbf hexp]
  rfl

theorem issuerOf_rereadMembers (claims : Members) :
    issuerOf (Value.rereadMembers claims) = issuerOf claims := by
  rw [issuerOf, issuerOf, Value.get?_rereadMembers]
  cases Members.get? claims "iss" with
  | none => rfl
  | some v => cases v <;> rfl

theorem verify_of_examine {challenge : Option Challenge} (hexpects : v.Expects challenge)
    {bs : Octets} {verified : Verified} (h : v.examine f bs = .ok verified)
    (registry : NonceRegistry) : v.verify f registry bs = (.ok verified, registry) := by
  have hnone : v.consumedNonce? = none := by
    rw [consumedNonce?]
    cases hp : v.policy with
    | none => rfl
    | some p =>
      obtain ⟨c, -, -, -, hconsumes⟩ := hexpects.challenged p hp
      rw [Option.bind_some, hconsumes]
      rfl
  rw [verify_of_consumedNonce? hnone, h]

end Verifier

/-! ## Issued tokens -/

namespace Issuer
variable {f : DigestFunction} {i : Issuer} {random : RandomSource} {claims : Members}
  {places : List Pointer} {holderKey : Option Jwk} {issued : Issued}

theorem exists_reads_of_fits (hs : Value.Sorted (.object claims))
    (h : i.issue f random (.object claims) places holderKey = .ok issued)
    (hpayload : issued.payload.Fits)
    (hdepth : (Value.object issued.payload.claims).depth ≤ depthLimit)
    (hds : ∀ d ∈ issued.disclosures, ∃ salt c, d = .ofParts salt c ∧ Disclosure.Fits c) :
    ∃ jwt info bs signature, issued.octets = Parts.octets
        ⟨jwt, (issued.disclosures.map Disclosure.reread).map Disclosure.encoded, none⟩ ∧
      i.signer.info = .ok info ∧ i.signer.sign bs = .ok signature ∧
      Reads f jwt ⟨bs, Signer.header info i.tokenType, issued.payload.written.octets, signature⟩
        issued.payload.reread (issued.disclosures.map Disclosure.reread)
        (bind holderKey (Value.rereadMembers claims)) (Pointer.ascending places).reverse := by
  obtain ⟨hconceals, -, jwt, info, signature, hoctets, hinfo, hsign, hdecode⟩ := issue_eq_ok hs h
  have hreveal := Payload.reveal_of_conceals (sorted_bind hs) hconceals
  rw [← Disclosure.map_encoded_reread] at hoctets
  refine ⟨jwt, info, _, signature, hoctets, hinfo, hsign, hdecode,
    Payload.ofOctets_written hpayload hdepth, ?_, ?_⟩
  · rw [List.forall_mem_map]
    intro e he
    obtain ⟨salt, c, rfl, hc⟩ := hds e he
    exact Disclosure.decode_ofParts salt hc
  · rw [← rereadMembers_bind]
    refine Payload.reveal_reread hpayload.sorted (fun e he => ?_) hreveal
    obtain ⟨salt, c, rfl, hc⟩ := hds e he
    exact hc.sorted

theorem exists_reads (hs : Value.Sorted (.object claims))
    (hd : (Value.object claims).depth ≤ 126)
    (h : i.issue f random (.object claims) places holderKey = .ok issued) :
    ∃ jwt info bs signature, issued.octets = Parts.octets
        ⟨jwt, (issued.disclosures.map Disclosure.reread).map Disclosure.encoded, none⟩ ∧
      i.signer.info = .ok info ∧ i.signer.sign bs = .ok signature ∧
      Reads f jwt ⟨bs, Signer.header info i.tokenType, issued.payload.written.octets, signature⟩
        issued.payload.reread (issued.disclosures.map Disclosure.reread)
        (bind holderKey (Value.rereadMembers claims)) (Pointer.ascending places).reverse := by
  obtain ⟨hpayload, hdepth, hds⟩ :=
    Payload.fits_of_conceals (sorted_bind hs) (depth_bind hd) (issue_eq_ok hs h).1
  exact exists_reads_of_fits hs h hpayload hdepth hds

theorem confirmationKey?_of_get? {k : Jwk}
    (h : Members.get? claims confirmationName = some (confirmation k)) :
    Verifier.confirmationKey? claims = some k.toPublic := by
  rw [Verifier.confirmationKey?, h, confirmation]
  exact k.toPublic.ofJson?_toJson

theorem confirmationKey?_withoutMembers {k : Jwk} {gone : List String → Bool}
    (h : ∀ path, gone (confirmationName :: path) = false) :
    Verifier.confirmationKey? (Value.withoutMembers gone (bind (some k) claims)) =
      some k.toPublic :=
  confirmationKey?_of_get? (by rw [Value.get?_withoutMembers h, get?_bind_some])

theorem hides_eq_false {ds : List Disclosure} {ps : List Pointer} {path : List String}
    (h : ∀ p ∈ ps, p.decoded ≠ path) (s : Selection) : s.hides (ds.zip ps) path = false := by
  rw [Selection.hides, List.any_eq_false]
  rintro ⟨d, p⟩ hm
  rw [Bool.and_eq_true, decide_eq_true_eq]
  exact fun hp => h p (List.of_mem_zip hm).2 hp.1

/-- What the parties agree on: the verifier finds the key of the issuer and takes what this one
signs, and it expects the challenge that the holder got. A challenge needs the key of a holder, for
which the verifier takes what the holder signs. -/
structure Agrees (i : Issuer) (payload : Payload) (holder : Signer) (holderKey : Option Jwk)
    (challenge : Option Challenge) (v : Verifier) : Prop where
  issuerKey : ∃ k, i.signer.TrustedBy v.check k ∧ ∀ info, i.signer.info = .ok info →
    v.resolver (Verifier.issuerOf payload.claims) info.keyId = .ok k
  holderKey : challenge.isSome = true →
    holder.Signs ∧ ∃ k, holderKey = some k ∧ holder.TrustedBy v.check k.toPublic
  expects : v.Expects challenge

/-- What a selection leaves of the claims. It sees the disclosures as they are read from the
token. -/
def shownClaims (issued : Issued) (places : List Pointer) (s : Selection) (claims : Members) :
    Members :=
  Value.withoutMembers (s.hides
    ((issued.disclosures.map Disclosure.reread).zip (Pointer.ascending places).reverse)) claims

/-- Every presentation of an issued token is accepted, and the verifier gets the claims without the
concealed values that are neither selected nor around a selected one. Numbers are what their text
reads as. -/
theorem verify_present_issue (hs : Value.Sorted (.object claims))
    (hdepth : (Value.object claims).depth ≤ 126)
    (hnbf : Members.get? claims "nbf" = none) (hexp : Members.get? claims "exp" = none)
    (hissue : i.issue f random (.object claims) places holderKey = .ok issued)
    (holder : Signer) (s : Selection) (challenge : Option Challenge) (v : Verifier)
    (hagrees : i.Agrees issued.payload holder holderKey challenge v) (registry : NonceRegistry) :
    ∃ t presented verified, Token.ofOctets? issued.octets = some t ∧
      t.present f holder s challenge = .ok presented ∧
      v.verify f registry presented = (.ok verified, registry) ∧
      verified.keyBindingVerified = challenge.isSome ∧
      verified.claims =
        shownClaims issued places s (bind holderKey (Value.rereadMembers claims)) ∧
      (Value.NumbersReadBack (.object claims) →
        verified.claims = shownClaims issued places s (bind holderKey claims)) := by
  obtain ⟨-, hfree, -⟩ := issue_eq_ok hs hissue
  obtain ⟨jwt, info, bs, signature, hoctets, hinfo, hsign, hreads⟩ :=
    exists_reads hs hdepth hissue
  obtain ⟨t, ht, hparts⟩ := Token.exists_ofOctets? jwt hreads.isEncoded
  obtain ⟨qs, hkept⟩ := hreads.keep s
  obtain ⟨kb, hanswers, hpresent⟩ := hreads.exists_present hparts holder s challenge
    fun hc => (hagrees.holderKey hc).1
  obtain ⟨k, htrusted, hresolved⟩ := hagrees.issuerKey
  have habsent {name : String} (hne : confirmationName ≠ name)
      (h : Members.get? claims name = none) :
      Members.get? (shownClaims issued places s
        (bind holderKey (Value.rereadMembers claims))) name = none := by
    refine Value.get?_withoutMembers_of_absent ((get?_bind_of_ne hne).trans ?_)
    rw [Value.get?_rereadMembers, h, Option.map_none]
  have hkey : challenge.isSome = true → ∃ k, Verifier.confirmationKey?
      (shownClaims issued places s (bind holderKey (Value.rereadMembers claims))) = some k ∧
        holder.TrustedBy v.check k := by
    intro hc
    obtain ⟨-, k, rfl, htrusted⟩ := hagrees.holderKey hc
    refine ⟨k.toPublic, confirmationKey?_withoutMembers fun path => ?_, htrusted⟩
    refine hides_eq_false (fun p hp => ?_) s
    exact decoded_ne_of_not_isConfirmation
      (hfree rfl p (Pointer.mem_ascending.1 (List.mem_reverse.1 hp))) path
  have hissuer : v.resolver (Verifier.issuerOf issued.payload.reread.claims)
      info.keyId = .ok k := by
    rw [Payload.reread, Verifier.issuerOf_rereadMembers]
    exact hresolved info hinfo
  obtain ⟨verified, hexamine, hclaims, hbound⟩ := Verifier.examine_of_reads hkept
    hissuer (htrusted.verify hinfo hsign _ _) (habsent (by decide) hnbf)
    (habsent (by decide) hexp) hagrees.expects hanswers hkey
  refine ⟨t, _, verified, hoctets ▸ ht, hpresent,
    Verifier.verify_of_examine hagrees.expects hexamine registry, hbound, hclaims,
    fun hnumbers => ?_⟩
  have hsame := Value.reread_eq_self hnumbers
  rw [Value.reread, Value.object.injEq] at hsame
  rw [hclaims, hsame]
  rfl

/-- An object with an item in it is concealed, the item too, and only the object is selected. -/
theorem verify_present_issue_nested :
    ∃ issued t presented verified,
      issue HashAlgorithm.digest ⟨.oneOctet, .sha256, 1, none⟩ (fun n => [UInt8.ofNat n])
        (.object [("a", .object [("b", .array [.bool true, .null])])])
        [⟨"/a/b/1", by decide⟩, ⟨"/a", by decide⟩] (some (.ofCurve "P-256")) = .ok issued ∧
      Token.ofOctets? issued.octets = some t ∧
      t.present HashAlgorithm.digest .oneOctet (fun p _ => p.text == "/a")
        (some ⟨"v", "n", ⟨1, by decide⟩⟩) = .ok presented ∧
      Verifier.trusting.verify HashAlgorithm.digest .empty presented =
        (.ok verified, .empty) ∧
      verified.keyBindingVerified = true ∧
      verified.claims = shownClaims issued [⟨"/a/b/1", by decide⟩, ⟨"/a", by decide⟩]
        (fun p _ => p.text == "/a") (bind (some (.ofCurve "P-256"))
          [("a", .object [("b", .array [.bool true, .null])])]) := by
  have hsorted : Value.Sorted (.object [("a", .object [("b", .array [.bool true, .null])])]) := by
    simp [Value.Sorted, Value.SortedMembers, Value.SortedItems, Members.Ascending]
  have hnumbers : Value.NumbersReadBack
      (.object [("a", .object [("b", .array [.bool true, .null])])]) := by
    simp [Value.NumbersReadBack, Value.MembersReadBack, Value.ItemsReadBack]
  have hok : (issue HashAlgorithm.digest ⟨.oneOctet, .sha256, 1, none⟩
      (fun n => [UInt8.ofNat n]) (.object [("a", .object [("b", .array [.bool true, .null])])])
      [⟨"/a/b/1", by decide⟩, ⟨"/a", by decide⟩] (some (.ofCurve "P-256"))).isOk = true := by
    decide +kernel
  obtain ⟨issued, hissue⟩ := exists_ok hok
  have hexpects : Verifier.trusting.Expects (some ⟨"v", "n", ⟨1, by decide⟩⟩) := by
    refine ⟨fun p hp => ?_, fun c hc => ?_⟩
    · cases hp
      exact ⟨_, rfl, rfl, rfl, rfl⟩
    · cases hc
      exact ⟨_, rfl, Clock.isRecent?_eq_some_true_iff.1 (by decide)⟩
  have hagrees : Agrees ⟨.oneOctet, .sha256, 1, none⟩ issued.payload .oneOctet
      (some (.ofCurve "P-256")) (some ⟨"v", "n", ⟨1, by decide⟩⟩) Verifier.trusting :=
    ⟨⟨_, Signer.trustedBy_of_free (fun _ _ _ => rfl) rfl, fun _ _ => rfl⟩,
      fun _ => ⟨Signer.signs_oneOctet, _, rfl,
        Signer.trustedBy_of_free (fun _ _ _ => rfl) rfl⟩, hexpects⟩
  obtain ⟨t, presented, verified, ht, hpresent, hverify, hbound, -, hclaims⟩ :=
    verify_present_issue hsorted (by decide) rfl rfl hissue .oneOctet
      (fun p _ => p.text == "/a") _ _ hagrees .empty
  exact ⟨issued, t, presented, verified, hissue, ht, hpresent, hverify, hbound, hclaims hnumbers⟩

/-- The number that `12e23` reads as. It is written `1.1999999999999999e+24`, and this reads as the
next number, `1.2e+24`. -/
def inexactClaims : Members :=
  [("n", .number (.binary ⟨false, 8940696716308593, 27, by decide⟩))]

/-- A number that is not read back comes out of a token as another number. -/
theorem claims_ne_of_inexact :
    Value.Sorted (.object inexactClaims) ∧ (Value.object inexactClaims).depth ≤ 126 ∧
      Members.get? inexactClaims "nbf" = none ∧ Members.get? inexactClaims "exp" = none ∧
      ∃ issued t presented verified,
        issue HashAlgorithm.digest ⟨.oneOctet, .sha256, 0, none⟩
          (fun n => [UInt8.ofNat n]) (.object inexactClaims) [] none = .ok issued ∧
        Agrees ⟨.oneOctet, .sha256, 0, none⟩ issued.payload .oneOctet none none
          { Verifier.trusting with policy := none } ∧
        Token.ofOctets? issued.octets = some t ∧
        t.present HashAlgorithm.digest .oneOctet (fun _ _ => true) none =
          .ok presented ∧
        Verifier.verify HashAlgorithm.digest { Verifier.trusting with policy := none }
          .empty presented = (.ok verified, .empty) ∧
        verified.claims ≠ shownClaims issued [] (fun _ _ => true) (bind none inexactClaims) := by
  have hsorted : Value.Sorted (.object inexactClaims) := by
    simp [inexactClaims, Value.Sorted, Value.SortedMembers, Members.Ascending]
  refine ⟨hsorted, by decide, rfl, rfl, ?_⟩
  have hrun : ((issue HashAlgorithm.digest ⟨.oneOctet, .sha256, 0, none⟩
      (fun n => [UInt8.ofNat n]) (.object inexactClaims) [] none).toOption.bind fun issued =>
        (Token.ofOctets? issued.octets).bind fun t =>
          (t.present HashAlgorithm.digest .oneOctet (fun _ _ => true) none).toOption.bind
            fun presented => (Verifier.examine HashAlgorithm.digest
              { Verifier.trusting with policy := none } presented).toOption.map
                fun verified => (Value.object verified.claims).text) =
      some "\x7b\"n\":1.2e+24\x7d" := by decide +kernel
  have htext : (Value.object inexactClaims).text ≠ "\x7b\"n\":1.2e+24\x7d" := by decide +kernel
  simp only [Option.bind_eq_some_iff, Option.map_eq_some_iff, toOption_eq_some_iff] at hrun
  obtain ⟨issued, hissue, t, ht, presented, hpresent, verified, hexamine, hclaims⟩ := hrun
  have hexpects : Verifier.Expects { Verifier.trusting with policy := none } none := by
    refine ⟨fun p hp => ?_, fun c hc => ?_⟩
    · cases hp
    · cases hc
  have hagrees : Agrees ⟨.oneOctet, .sha256, 0, none⟩ issued.payload .oneOctet none none
      { Verifier.trusting with policy := none } :=
    ⟨⟨_, Signer.trustedBy_of_free (fun _ _ _ => rfl) rfl, fun _ _ => rfl⟩,
      fun h => absurd h Bool.false_ne_true, hexpects⟩
  refine ⟨issued, t, presented, verified, hissue, hagrees, ht, hpresent,
    Verifier.verify_of_examine hexpects hexamine .empty, fun heq => htext ?_⟩
  have hall : shownClaims issued [] (fun _ _ => true) (bind none inexactClaims) =
      inexactClaims := by
    have hnone (path : List String) : Selection.hides (fun _ _ => true)
        ((issued.disclosures.map Disclosure.reread).zip (Pointer.ascending []).reverse) path =
          false :=
      hides_eq_false (fun p hp => absurd (Pointer.mem_ascending.1 (List.mem_reverse.1 hp))
        List.not_mem_nil) _
    have hsame := Value.without_of_none hnone (.object inexactClaims)
    rw [Value.without, Value.object.injEq] at hsame
    exact hsame
  rw [← hclaims, heq, hall]

end Issuer

end SelectiveDisclosure
