import SelectiveDisclosure.Proofs.Issuance
import SelectiveDisclosure.Proofs.Presenting
import SelectiveDisclosure.Proofs.Verification.Soundness

/-!
# What is written is compact

A token is put together of a JWS and disclosures when it is issued, when it is presented, and when
it is encoded again after disclosures have been taken out of it. Whatever the signers answer and
however the disclosures are chosen, the result has the compact form, and falls apart into the parts
it was made of.
-/

set_option autoImplicit false

namespace SelectiveDisclosure

open Json

/-! ## Issued tokens -/

namespace Concealer
variable {c : Concealer}

theorem isEncoded_concealMember {name : String} {ms : Members} {draw : Nat} {step : Step}
    (h : c.concealMember name ms draw = some step) :
    Disclosure.isEncoded step.disclosure.encoded = true := by
  obtain ⟨v, _, _, -, -, rfl⟩ := concealMember_eq_some_iff.1 h
  simp only [Disclosure.ofParts, Disclosure.isEncoded_encode]

theorem isEncoded_concealItem {i : Nat} {items : List Value} {draw : Nat} {step : Step}
    (h : c.concealItem i items draw = some step) :
    Disclosure.isEncoded step.disclosure.encoded = true := by
  obtain ⟨v, -, rfl⟩ := concealItem_eq_some_iff.1 h
  simp only [Disclosure.ofParts, Disclosure.isEncoded_encode]

theorem isEncoded_concealAt {ts : List Pointer.Token} {v : Value} {draw : Nat} {step : Step}
    (h : c.ConcealsAt draw ts v step) :
    Disclosure.isEncoded step.disclosure.encoded = true := by
  induction h with
  | member h => exact isEncoded_concealMember h
  | item hi h => exact isEncoded_concealItem h
  | inMember hget h ih => exact ih
  | inItem hi hget h ih => exact ih

theorem isEncoded_concealAll {ps : List Pointer} {claims claims' : Members} {draw : Nat}
    {ds : List Disclosure} (h : c.concealAll ps claims draw = .ok (claims', ds)) :
    ∀ d ∈ ds, Disclosure.isEncoded d.encoded = true := by
  induction ps generalizing claims draw ds with
  | nil =>
    cases h
    exact fun d hd => absurd hd List.not_mem_nil
  | cons p r ih =>
    obtain ⟨-, d, claims₁, draw₁, ds₁, hstep, hrun, rfl⟩ := concealAll_cons_eq_ok_iff.1 h
    exact List.forall_mem_cons.2 ⟨isEncoded_concealAt hstep, ih hrun⟩

end Concealer

namespace Issuer
variable {f : DigestFunction} {i : Issuer} {random : RandomSource} {claims : Value}
  {places : List Pointer} {holder : Option Jwk} {issued : Issued}

theorem isEncoded_of_concealClaims {claims : Members} {payload : Payload} {ds : List Disclosure}
    (h : i.concealClaims f random claims places holder = .ok (payload, ds)) :
    ∀ d ∈ ds, Disclosure.isEncoded d.encoded = true := by
  rw [concealClaims] at h
  split at h
  · cases h
  split at h
  · cases h
  · next hconceal =>
    cases h
    exact Concealer.isEncoded_concealAll (Payload.conceals_of_conceal hconceal).run

theorem exists_octets_of_issue (h : i.issue f random claims places holder = .ok issued) :
    ∃ jwt, issued.octets = Parts.octets ⟨jwt, issued.disclosures.map Disclosure.encoded, none⟩ ∧
      ∀ s ∈ issued.disclosures.map Disclosure.encoded, Disclosure.isEncoded s = true := by
  obtain ⟨members, jwt, -, hconceal, -, hoctets⟩ := exists_of_issue h
  exact ⟨jwt, hoctets, List.forall_mem_map.2 (isEncoded_of_concealClaims hconceal)⟩

end Issuer

/-! ## Presentations -/

namespace Token
variable {f : DigestFunction} {t : Token} {holder : Signer} {s : Selection}
  {challenge : Option Challenge} {bs : Octets}

theorem exists_octets_of_present (h : t.present f holder s challenge = .ok bs) :
    ∃ r kb, t.reveal f = .ok r ∧
      Answers f holder r.digestAlgorithm (t.showing (r.shown s)) challenge kb ∧
      bs = Parts.octets ⟨t.jwt, t.disclosures.filter fun d => (r.shown s).contains d, kb⟩ := by
  rw [present, bind_eq_ok_iff] at h
  obtain ⟨r, hr, h⟩ := h
  rw [mapError_eq_ok_iff] at hr
  cases challenge with
  | none =>
    cases h
    exact ⟨r, none, hr, .unbound, rfl⟩
  | some c =>
    obtain ⟨jwt, hjwt, h⟩ := bind_eq_ok_iff.1 h
    rw [mapError_eq_ok_iff] at hjwt
    cases h
    refine ⟨r, some jwt, hr, .bound hjwt, ?_⟩
    rw [Presentation.octets_eq]
    rfl

end Token

/-! ## Tokens encoded again -/

namespace DisclosureMap
variable {p : Pointer} {d : Disclosure} {m rest : DisclosureMap} {e : Pointer × Disclosure}

theorem mem_insert_imp (h : e ∈ insert p d m) : e = (p, d) ∨ e ∈ m := by
  induction m with
  | nil => exact .inl (List.mem_singleton.1 h)
  | cons g r ih =>
    obtain ⟨q, g⟩ := g
    rw [insert] at h
    split at h
    · exact List.mem_cons.1 h
    split at h
    · exact (List.mem_cons.1 h).imp id (List.mem_cons_of_mem _)
    · rcases List.mem_cons.1 h with rfl | h
      · exact .inr List.mem_cons_self
      · exact (ih h).imp id (List.mem_cons_of_mem _)

theorem mem_of_remove? (h : remove? p m = some (d, rest)) :
    (p, d) ∈ m ∧ ∀ e ∈ rest, e ∈ m := by
  induction m generalizing rest with
  | nil => cases h
  | cons g r ih =>
    obtain ⟨q, g⟩ := g
    rw [remove?] at h
    by_cases hp : p = q
    · rw [if_pos hp] at h
      cases h
      exact ⟨hp ▸ List.mem_cons_self, fun e he => List.mem_cons_of_mem _ he⟩
    · rw [if_neg hp, Option.map_eq_some_iff] at h
      obtain ⟨⟨d', rest'⟩, hr, h⟩ := h
      cases h
      obtain ⟨hd, hrest⟩ := ih hr
      refine ⟨List.mem_cons_of_mem _ hd, List.forall_mem_cons.2 ⟨List.mem_cons_self, ?_⟩⟩
      exact fun e he => List.mem_cons_of_mem _ (hrest e he)

theorem mem_of_mem_take {ps : List Pointer} (h : e ∈ (take ps m).1 ∨ e ∈ (take ps m).2) :
    e ∈ m := by
  induction ps generalizing m with
  | nil => exact h.resolve_left List.not_mem_nil
  | cons p ps ih =>
    rw [take] at h
    cases hr : remove? p m with
    | none =>
      rw [hr] at h
      exact ih h
    | some removed =>
      obtain ⟨d, rest⟩ := removed
      rw [hr] at h
      obtain ⟨hd, hrest⟩ := mem_of_remove? hr
      rcases h with h | h
      · rcases mem_insert_imp h with rfl | h
        · exact hd
        · exact hrest e (ih (.inl h))
      · exact hrest e (ih (.inr h))

end DisclosureMap

namespace Revealed

inductive Edit where
  | retain (places : List Pointer)
  | reject (places : List Pointer)
  | clear

def edit (r : Revealed) : Edit → Revealed
  | .retain places => (r.retain places).1
  | .reject places => (r.reject places).1
  | .clear => r.clear

/-- A revealed token with the signed text of the JWS it was revealed from, and with some of the
disclosures. -/
structure RevealedFrom (parts : Parts) (r : Revealed) : Prop where
  signed : parts.jwt.octets =
    r.jwt.signingOctets ++ Jws.point :: Base64Url.encode r.jwt.signature
  segments : ∀ e ∈ r.disclosures, e.2.encoded ∈ parts.disclosures ∧
    Disclosure.isEncoded e.2.encoded = true

variable {f : DigestFunction} {parts : Parts} {r : Revealed}

theorem revealedFrom_of_reveal (h : parts.reveal f = .ok r) : RevealedFrom parts r := by
  simp only [Parts.reveal, bind_eq_ok_iff, mapError_eq_ok_iff] at h
  obtain ⟨u, hdecode, hreveal⟩ := h
  obtain ⟨d, payload, hd, hpayload, hjwt, hds⟩ := Parts.decode_eq_ok_iff.1 hdecode
  obtain ⟨hencoded, hdecoded⟩ := Disclosure.map_decode_eq_ok hds
  obtain ⟨hsorted, hvalues⟩ := Parts.sorted_of_decode hdecode
  obtain ⟨ps, -, hrjwt, -, hperm, -⟩ := Token.Decoded.reveal_eq_ok hsorted hvalues hreveal
  constructor
  · rw [hrjwt, hjwt]
    exact Jws.octets_of_decode hd
  · rintro ⟨p, e⟩ hm
    have he : e ∈ u.disclosures := (List.of_mem_zip (hperm.mem_iff.1 hm)).2
    refine ⟨?_, (Disclosure.decode_eq_ok (hdecoded e he)).1⟩
    rw [hencoded]
    exact List.mem_map_of_mem he

theorem RevealedFrom.edit (h : RevealedFrom parts r) (a : Edit) :
    RevealedFrom parts (r.edit a) := by
  cases a with
  | retain places =>
    exact ⟨h.signed, fun e he => h.segments e (DisclosureMap.mem_of_mem_take (.inl he))⟩
  | reject places =>
    exact ⟨h.signed, fun e he => h.segments e (DisclosureMap.mem_of_mem_take (.inr he))⟩
  | clear => exact ⟨h.signed, fun e he => absurd he List.not_mem_nil⟩

theorem RevealedFrom.edits (h : RevealedFrom parts r) (edits : List Edit) :
    RevealedFrom parts (edits.foldl Revealed.edit r) := by
  induction edits generalizing r with
  | nil => exact h
  | cons a rest ih => exact ih (h.edit a)

theorem RevealedFrom.exists_parts (h : RevealedFrom parts r) :
    ∃ t, Token.ofOctets? r.encode = some t ∧
      t.parts = ⟨parts.jwt, r.disclosures.map fun e => e.2.encoded, none⟩ := by
  have hencode : r.encode =
      Parts.octets ⟨parts.jwt, r.disclosures.map fun e => e.2.encoded, none⟩ := by
    rw [encode, ← h.signed, Parts.octets, List.append_nil]
  rw [hencode]
  exact Token.exists_ofOctets? parts.jwt (List.forall_mem_map.2 fun e he => (h.segments e he).2)

theorem RevealedFrom.exists_ofOctets? (h : RevealedFrom parts r) :
    ∃ t, Token.ofOctets? r.encode = some t ∧ t.jwt = parts.jwt ∧
      t.disclosures ⊆ parts.disclosures := by
  obtain ⟨t, ht, hparts⟩ := h.exists_parts
  refine ⟨t, ht, congrArg Parts.jwt hparts, ?_⟩
  rw [show t.disclosures = _ from congrArg Parts.disclosures hparts]
  exact List.forall_mem_map.2 fun e he => (h.segments e he).1

end Revealed

/-! ## All that is written -/

/-- Whoever signs and whatever is signed, concealed, shown or taken out: an issued token is a token,
a presentation consists of what is shown of its token and of the answer to the challenge, and what
is encoded again is a token with the JWS it was revealed from. -/
theorem isCompact_written (f : DigestFunction) :
    (∀ (i : Issuer) (random : RandomSource) (claims : Value) (places : List Pointer)
      (holder : Option Jwk) (issued : Issued),
      i.issue f random claims places holder = .ok issued → Token.isCompact issued.octets = true) ∧
    (∀ (t : Token) (holder : Signer) (s : Selection) (challenge : Option Challenge)
      (bs : Octets), t.present f holder s challenge = .ok bs →
      ∃ (r : Revealed) (p : Presentation), t.reveal f = .ok r ∧
        Presentation.ofOctets? bs = some p ∧ p.token.octets = t.showing (r.shown s) ∧
        Answers f holder r.digestAlgorithm p.token.octets challenge p.keyBinding) ∧
    ∀ (parts : Parts) (r : Revealed) (edits : List Revealed.Edit), parts.reveal f = .ok r →
      ∃ t, Token.ofOctets? (edits.foldl Revealed.edit r).encode = some t ∧ t.jwt = parts.jwt ∧
        t.disclosures ⊆ parts.disclosures := by
  refine ⟨?_, ?_, ?_⟩
  · intro i random claims places holder issued h
    obtain ⟨jwt, hoctets, hds⟩ := Issuer.exists_octets_of_issue h
    exact Token.isCompact_iff.2 ⟨jwt, _, hoctets, hds⟩
  · intro t holder s challenge bs h
    obtain ⟨r, kb, hr, hanswers, rfl⟩ := Token.exists_octets_of_present h
    obtain ⟨p, hp, hparts⟩ := Presentation.exists_ofOctets?
      ⟨t.jwt, t.disclosures.filter fun d => (r.shown s).contains d, kb⟩
      fun d hd => t.octets_parts.2 d (List.mem_filter.1 hd).1
    have htoken : p.token.octets = t.showing (r.shown s) := by
      rw [p.octets_parts.2.1, hparts]
      rfl
    refine ⟨r, p, hr, hp, htoken, ?_⟩
    rw [htoken, show p.keyBinding = kb from congrArg Parts.keyBinding hparts]
    exact hanswers
  · intro parts r edits h
    exact ((Revealed.revealedFrom_of_reveal h).edits edits).exists_ofOctets?

/-- A signer that signs everything with two octets, under a key id that no text needs to be. -/
def quotingSigner : Signer :=
  ⟨.ok ⟨some "~.\"", .es384⟩, fun _ => .ok [255, 254]⟩

/-- A member and an item in it are concealed, the item alone is selected, and the presentation is
revealed and written again without it. -/
theorem isCompact_written_nested :
    ∃ issued t bs p r t',
      Issuer.issue HashAlgorithm.digest ⟨quotingSigner, .sha256, 0, some "~"⟩
        (fun n => [UInt8.ofNat n]) (.object [("a", .array [.bool true, .null])])
        [⟨"/a/1", by decide⟩, ⟨"/a", by decide⟩] none = .ok issued ∧
      Token.isCompact issued.octets = true ∧ Token.ofOctets? issued.octets = some t ∧
      t.present HashAlgorithm.digest quotingSigner (fun p _ => p.text == "/a/1")
        (some ⟨"v", "~", ⟨1, by decide⟩⟩) = .ok bs ∧
      Presentation.ofOctets? bs = some p ∧ p.keyBinding.isSome = true ∧
      p.parts.reveal HashAlgorithm.digest = .ok r ∧
      Token.ofOctets? ([.reject [⟨"/a/1", by decide⟩], .retain [⟨"/a", by decide⟩]].foldl
        Revealed.edit r).encode = some t' ∧
      t'.jwt = p.parts.jwt ∧ t'.disclosures.length = 1 := by
  have hrun : ((Issuer.issue HashAlgorithm.digest ⟨quotingSigner, .sha256, 0, some "~"⟩
      (fun n => [UInt8.ofNat n]) (.object [("a", .array [.bool true, .null])])
      [⟨"/a/1", by decide⟩, ⟨"/a", by decide⟩] none).toOption.bind
        fun issued => (Token.ofOctets? issued.octets).bind fun t =>
          (t.present HashAlgorithm.digest quotingSigner (fun p _ => p.text == "/a/1")
            (some ⟨"v", "~", ⟨1, by decide⟩⟩)).toOption.bind fun bs =>
              (Presentation.ofOctets? bs).bind fun p =>
                (p.parts.reveal HashAlgorithm.digest).toOption.bind fun r =>
                  (Token.ofOctets? ([.reject [⟨"/a/1", by decide⟩],
                    .retain [⟨"/a", by decide⟩]].foldl Revealed.edit r).encode).map fun t' =>
                      t'.disclosures.length) = some 1 := by
    decide +kernel
  simp only [Option.bind_eq_some_iff, Option.map_eq_some_iff, toOption_eq_some_iff] at hrun
  obtain ⟨issued, hissue, t, ht, bs, hpresent, p, hp, r, hr, t', ht', hlength⟩ := hrun
  obtain ⟨hissued, hpresented, hencoded⟩ := isCompact_written HashAlgorithm.digest
  obtain ⟨_, p', -, hp', -, hanswers⟩ := hpresented t quotingSigner _ _ bs hpresent
  obtain rfl := Option.some.inj (hp.symm.trans hp')
  have hbound : p.keyBinding.isSome = true := by
    cases hkb : p.keyBinding with
    | none =>
      rw [hkb] at hanswers
      cases hanswers
    | some jwt => rfl
  obtain ⟨t'', ht'', hjwt, -⟩ := hencoded p.parts r _ hr
  obtain rfl := Option.some.inj (ht'.symm.trans ht'')
  exact ⟨issued, t, bs, p, r, t', hissue, hissued _ _ _ _ _ issued hissue, ht, hpresent, hp,
    hbound, hr, ht', hjwt, hlength⟩

end SelectiveDisclosure
