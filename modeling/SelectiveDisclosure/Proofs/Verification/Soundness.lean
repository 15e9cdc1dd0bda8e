import SelectiveDisclosure.Proofs.Jws.Verifying
import SelectiveDisclosure.Proofs.Time.Instant
import SelectiveDisclosure.Proofs.Token.Revealed
import SelectiveDisclosure.Verification.Verifier

/-!
# Soundness of verification

An accepted presentation has passed every check: the key of its issuer has signed it, its claims are
what its disclosures reveal, the dates in them hold, and its key binding, which is there whenever
the policy asks for it, is signed by the key in the claims and bound to the octets in front of it.
-/

set_option autoImplicit false

namespace SelectiveDisclosure

open Json Reveal

/-! ## Dates -/

namespace Clock
variable {c : Clock} {t : Instant}

/-- The instant is not after now, up to the tolerated skew. -/
def HasStarted (c : Clock) (t : Instant) : Prop :=
  ∃ latest, c.now.add? c.skew = some latest ∧ t ≤ latest

def HasNotEnded (c : Clock) (t : Instant) : Prop :=
  ∃ earliest, c.now.sub? c.skew = some earliest ∧ earliest < t

/-- The instant is at most so far back and not to come, up to the tolerated skew. -/
def IsRecent (c : Clock) (maxAge : Duration) (t : Instant) : Prop :=
  ∃ oldest earliest latest, c.now.sub? maxAge = some oldest ∧ oldest.sub? c.skew = some earliest ∧
    c.now.add? c.skew = some latest ∧ earliest ≤ t ∧ t ≤ latest

theorem checkStart_eq_ok_iff {start : Option Instant} :
    c.checkStart start = .ok () ↔ ∀ t, start = some t → c.HasStarted t := by
  cases start with
  | none => simp [checkStart]
  | some t =>
    simp only [checkStart, Option.some.injEq, forall_eq', HasStarted]
    cases c.now.add? c.skew with
    | none => simp
    | some latest =>
      simp only [Option.some.injEq, exists_eq_left', ← Instant.not_lt]
      by_cases h : latest < t <;> simp [h]

theorem checkEnd_eq_ok_iff {stop : Option Instant} :
    c.checkEnd stop = .ok () ↔ ∀ t, stop = some t → c.HasNotEnded t := by
  cases stop with
  | none => simp [checkEnd]
  | some t =>
    simp only [checkEnd, Option.some.injEq, forall_eq', HasNotEnded]
    cases c.now.sub? c.skew with
    | none => simp
    | some earliest =>
      simp only [Option.some.injEq, exists_eq_left', ← Instant.not_le]
      by_cases h : t ≤ earliest <;> simp [h]

theorem checkPeriod_eq_ok_iff {start stop : Option Instant} :
    c.checkPeriod start stop = .ok () ↔
      (∀ t, start = some t → c.HasStarted t) ∧ ∀ t, stop = some t → c.HasNotEnded t := by
  rw [← checkStart_eq_ok_iff, ← checkEnd_eq_ok_iff, checkPeriod, bind_eq_ok_iff]
  exact ⟨fun ⟨_, hs, he⟩ => ⟨hs, he⟩, fun ⟨hs, he⟩ => ⟨(), hs, he⟩⟩

theorem isRecent?_eq_some_true_iff {maxAge : Duration} :
    c.isRecent? maxAge t = some true ↔ c.IsRecent maxAge t := by
  simp only [isRecent?, Option.bind_eq_bind, Option.bind_eq_some_iff]
  constructor
  · rintro ⟨oldest, ho, earliest, he, h⟩
    split at h
    · cases h
    · next hlt =>
      obtain ⟨latest, hl, h⟩ := Option.bind_eq_some_iff.1 h
      exact ⟨oldest, earliest, latest, ho, he, hl, Instant.not_lt.1 hlt,
        of_decide_eq_true (Option.some.inj h)⟩
  · rintro ⟨oldest, earliest, latest, ho, he, hl, hte, htl⟩
    refine ⟨oldest, ho, earliest, he, ?_⟩
    rw [if_neg (Instant.not_lt.2 hte), hl]
    exact congrArg some (decide_eq_true htl)

end Clock

/-! ## Signatures -/

/-- The check accepted what is in front of the last point of a JWS, and the signature behind it,
under the algorithm of the header. -/
structure Jws.SignedBy (check : SignatureCheck) (j : Jws) (d : Jws.Decoded Octets) (k : Jwk) :
    Prop where
  decoded : j.decode = .ok d
  verbatim : j.octets = d.signingOctets ++ Jws.point :: j.signature
  signature : Base64Url.decode j.signature = .ok d.signature
  accepted : check d.header.algorithm d.signingOctets d.signature k = .ok true
  notCritical : d.header.critical = none
  pinned : ∀ a, k.algorithm = some a → a = d.header.algorithm

namespace Jws

theorem signedBy_of_verify {j : Jws} {d : Decoded Octets} {check : SignatureCheck} {k : Jwk}
    (hd : j.decode = .ok d) (h : d.verify check k = .ok true) : j.SignedBy check d k := by
  obtain ⟨hcrit, hpin, hcheck⟩ := Decoded.verify_eq_ok_true_iff.1 h
  obtain ⟨hsigning, -, -, hsignature⟩ := decode_eq_ok_iff.1 hd
  exact ⟨hd, hsigning ▸ j.octets_eq, hsignature, hcheck, hcrit, hpin⟩

end Jws

namespace Verifier
variable {f : DigestFunction} {v : Verifier}

theorem issuerOf_eq_some_iff {claims : Members} {issuer : String} :
    issuerOf claims = some issuer ↔ Members.get? claims "iss" = some (.string issuer) := by
  rw [issuerOf, Option.bind_eq_some_iff]
  constructor
  · rintro ⟨u, hu, hissuer⟩
    cases u <;> cases hissuer
    exact hu
  · exact fun h => ⟨_, h, rfl⟩

theorem checkSigned_eq_ok_iff {α : Type} {d : Jws.Decoded α} {k : Jwk} {otherwise : Rejection} :
    v.checkSigned d k otherwise = .ok () ↔ d.verify v.check k = .ok true := by
  unfold checkSigned
  split <;> simp_all

/-! ## Dates in claims -/

theorem instantOf_eq_ok_iff {name : String} {d : NumericDate} {t : Instant} :
    instantOf name d = .ok t ↔ d.toInstant? = some t := by
  unfold instantOf
  cases d.toInstant? <;> simp

theorem optionalInstantOf_eq_ok_iff {name : String} {d : Option NumericDate} {t : Option Instant} :
    optionalInstantOf name d = .ok t ↔ d.map NumericDate.toInstant? = t.map some := by
  cases d with
  | none => cases t <;> simp [optionalInstantOf]
  | some d =>
    rw [optionalInstantOf]
    simp only [map_eq_ok_iff, instantOf_eq_ok_iff]
    cases t <;> simp

def IsDate (claims : Members) (name : String) (t : Instant) : Prop :=
  ∃ w d, Members.get? claims name = some w ∧ NumericDate.ofJson? w = some d ∧
    d.toInstant? = some t

theorem dateClaim_eq_ok {claims : Members} {name : String} {t : Option Instant}
    (h : dateClaim claims name = .ok t) {w : Value} (hw : Members.get? claims name = some w) :
    ∃ s, t = some s ∧ IsDate claims name s := by
  rw [dateClaim, hw] at h
  simp only at h
  cases hd : NumericDate.ofJson? w with
  | none => simp [hd] at h
  | some d =>
    simp only [hd, map_eq_ok_iff, instantOf_eq_ok_iff] at h
    obtain ⟨s, hs, rfl⟩ := h
    exact ⟨s, rfl, w, d, hw, hd, hs⟩

structure DatesHold (v : Verifier) (claims : Members) : Prop where
  started : (Members.get? claims "nbf").isSome → ∃ t, IsDate claims "nbf" t ∧ v.clock.HasStarted t
  notEnded : (Members.get? claims "exp").isSome →
    ∃ t, IsDate claims "exp" t ∧ v.clock.HasNotEnded t

theorem checkPeriod_eq_ok_iff {start stop : Option Instant} :
    v.checkPeriod start stop = .ok () ↔
      (∀ t, start = some t → v.clock.HasStarted t) ∧
        ∀ t, stop = some t → v.clock.HasNotEnded t := by
  rw [checkPeriod, mapError_eq_ok_iff, Clock.checkPeriod_eq_ok_iff]

theorem datesHold_of_checkDates {claims : Members} (h : v.checkDates claims = .ok ()) :
    v.DatesHold claims := by
  simp only [checkDates, bind_eq_ok_iff, checkPeriod_eq_ok_iff] at h
  obtain ⟨start, hstart, stop, hstop, hstarted, hended⟩ := h
  constructor
  · intro hnbf
    obtain ⟨w, hw⟩ := Option.isSome_iff_exists.1 hnbf
    obtain ⟨t, ht, hdate⟩ := dateClaim_eq_ok hstart hw
    exact ⟨t, hdate, hstarted t ht⟩
  · intro hexp
    obtain ⟨w, hw⟩ := Option.isSome_iff_exists.1 hexp
    obtain ⟨t, ht, hdate⟩ := dateClaim_eq_ok hstop hw
    exact ⟨t, hdate, hended t ht⟩

/-! ## Key bindings -/

theorem confirmationKey?_eq_some_iff {claims : Members} {k : Jwk} :
    confirmationKey? claims = some k ↔ ∃ cnf w, Members.get? claims "cnf" = some (.object cnf) ∧
      Members.get? cnf "jwk" = some w ∧ Jwk.ofJson? w = some k := by
  simp only [confirmationKey?, Option.bind_eq_bind, Option.bind_eq_some_iff]
  constructor
  · rintro ⟨u, hu, cnf, hcnf, w, hw, hk⟩
    cases u <;> cases hcnf
    exact ⟨cnf, w, hu, hw, hk⟩
  · rintro ⟨cnf, w, hcnf, hw, hk⟩
    exact ⟨_, hcnf, cnf, rfl, w, hw, hk⟩

/-- What a key binding is when it belongs to the octets in front of it. -/
structure Binds (f : DigestFunction) (v : Verifier) (claims : Members) (algorithm : HashAlgorithm)
    (front : Octets) (jwt : Jws) (d : Jws.Decoded Octets) (k : Jwk) (b : KeyBinding) : Prop where
  key : ∃ cnf w, Members.get? claims "cnf" = some (.object cnf) ∧
    Members.get? cnf "jwk" = some w ∧ Jwk.ofJson? w = some k
  signed : jwt.SignedBy v.check d k
  tokenType : d.header.tokenType = some KeyBinding.tokenType
  content : KeyBinding.ofOctets? d.payload = some b
  tokenDigest : b.tokenDigest = f algorithm front
  audience : ∀ p, v.policy = some p → b.audience = p.audience
  nonce : ∀ p, v.policy = some p → b.nonce = p.nonce
  recent : ∃ t, b.issuedAt.toInstant? = some t ∧ v.clock.IsRecent v.maxAge t
  started : ∀ p, v.policy = some p → p.checksPeriod = true →
    ∀ n, b.notBefore = some n → ∃ t, n.toInstant? = some t ∧ v.clock.HasStarted t
  notEnded : ∀ p, v.policy = some p → p.checksPeriod = true →
    ∀ n, b.expiresAt = some n → ∃ t, n.toInstant? = some t ∧ v.clock.HasNotEnded t

theorem decodeKeyBinding_eq_ok {k : Jwk} {jwt : Jws} {b : KeyBinding}
    (h : v.decodeKeyBinding k jwt = .ok b) :
    ∃ d, jwt.SignedBy v.check d k ∧ d.header.tokenType = some KeyBinding.tokenType ∧
      KeyBinding.ofOctets? d.payload = some b := by
  rw [decodeKeyBinding, bind_eq_ok_iff] at h
  obtain ⟨d, hd, h⟩ := h
  rw [mapError_eq_ok_iff] at hd
  by_cases ht : d.header.tokenType = some KeyBinding.tokenType
  · rw [if_neg (not_not_intro ht), bind_eq_ok_iff] at h
    obtain ⟨_, hsigned, h⟩ := h
    have hverify := Jws.signedBy_of_verify hd (checkSigned_eq_ok_iff.1 hsigned)
    split at h
    · next b' hb =>
      cases h
      exact ⟨d, hverify, ht, hb⟩
    · cases h
  · rw [if_pos ht] at h
    cases h

theorem checkChallenge_eq_ok {b : KeyBinding} {p : KeyBindingPolicy}
    (h : checkChallenge b p = .ok ()) : b.audience = p.audience ∧ b.nonce = p.nonce := by
  unfold checkChallenge at h
  by_cases ha : b.audience = p.audience
  · by_cases hn : b.nonce = p.nonce
    · exact ⟨ha, hn⟩
    · simp [ha, hn] at h
  · simp [ha] at h

theorem checkRecent_eq_ok {b : KeyBinding} (h : v.checkRecent b = .ok ()) :
    ∃ t, b.issuedAt.toInstant? = some t ∧ v.clock.IsRecent v.maxAge t := by
  simp only [checkRecent, bind_eq_ok_iff, instantOf_eq_ok_iff] at h
  obtain ⟨t, ht, h⟩ := h
  refine ⟨t, ht, Clock.isRecent?_eq_some_true_iff.1 ?_⟩
  split at h
  · assumption
  · cases h
  · cases h

theorem exists_instant {name : String} {d : Option NumericDate} {t : Option Instant}
    (h : optionalInstantOf name d = .ok t) {n : NumericDate} (hn : d = some n) :
    ∃ s, n.toInstant? = some s ∧ t = some s := by
  rw [optionalInstantOf_eq_ok_iff, hn] at h
  cases t with
  | none => cases h
  | some s => exact ⟨s, Option.some.inj h, rfl⟩

theorem checkLifetime_eq_ok {b : KeyBinding} (h : v.checkLifetime b = .ok ()) :
    (∀ n, b.notBefore = some n → ∃ t, n.toInstant? = some t ∧ v.clock.HasStarted t) ∧
      ∀ n, b.expiresAt = some n → ∃ t, n.toInstant? = some t ∧ v.clock.HasNotEnded t := by
  simp only [checkLifetime, bind_eq_ok_iff, checkPeriod_eq_ok_iff] at h
  obtain ⟨start, hstart, stop, hstop, hstarted, hended⟩ := h
  constructor
  · intro n hn
    obtain ⟨t, ht, hs⟩ := exists_instant hstart hn
    exact ⟨t, ht, hstarted t hs⟩
  · intro n hn
    obtain ⟨t, ht, hs⟩ := exists_instant hstop hn
    exact ⟨t, ht, hended t hs⟩

structure PassesBinding (f : DigestFunction) (v : Verifier) (r : Revealed) (front : Octets)
    (jwt : Jws) (k : Jwk) (b : KeyBinding) : Prop where
  key : confirmationKey? r.claims = some k
  decoded : v.decodeKeyBinding k jwt = .ok b
  tokenDigest : b.tokenDigest = f r.digestAlgorithm front
  challenge : ∀ p, v.policy = some p → checkChallenge b p = .ok ()
  recent : v.checkRecent b = .ok ()
  lifetime : ∀ p, v.policy = some p → p.checksPeriod = true → v.checkLifetime b = .ok ()

theorem checkKeyBinding_eq_ok_iff {r : Revealed} {front : Octets} {jwt : Jws} :
    v.checkKeyBinding f r front jwt = .ok () ↔ ∃ k b, PassesBinding f v r front jwt k b := by
  rw [checkKeyBinding]
  constructor
  · intro h
    cases hk : confirmationKey? r.claims with
    | none =>
      rw [hk] at h
      cases h
    | some k =>
      rw [hk] at h
      obtain ⟨b, hb, h⟩ := bind_eq_ok_iff.1 h
      by_cases hdigest : b.tokenDigest ≠ f r.digestAlgorithm front
      · rw [if_pos hdigest] at h
        cases h
      rw [if_neg hdigest] at h
      rw [ne_eq, not_not] at hdigest
      cases hp : v.policy with
      | none =>
        have hno : ∀ p, v.policy ≠ some p := fun p hsome => by simp [hp] at hsome
        rw [hp] at h
        exact ⟨k, b, hk, hb, hdigest, fun p hsome => absurd hsome (hno p), h,
          fun p hsome => absurd hsome (hno p)⟩
      | some p =>
        simp only [hp, bind_eq_ok_iff] at h
        obtain ⟨_, hchallenge, _, hrecent, hlifetime⟩ := h
        refine ⟨k, b, hk, hb, hdigest, fun q hq => ?_, hrecent, fun q hq hperiod => ?_⟩
        · rw [hp] at hq
          cases hq
          exact hchallenge
        · rw [hp] at hq
          cases hq
          rwa [if_pos hperiod] at hlifetime
  · rintro ⟨k, b, h⟩
    rw [h.key]
    refine bind_eq_ok_iff.2 ⟨b, h.decoded, ?_⟩
    rw [if_neg (not_not_intro h.tokenDigest)]
    cases hp : v.policy with
    | none => exact h.recent
    | some p =>
      refine bind_eq_ok_iff.2 ⟨(), h.challenge p hp, bind_eq_ok_iff.2 ⟨(), h.recent, ?_⟩⟩
      by_cases hperiod : p.checksPeriod = true
      · rw [if_pos hperiod]
        exact h.lifetime p hp hperiod
      · rw [if_neg hperiod]
        rfl

theorem binds_of_checkKeyBinding {r : Revealed} {front : Octets} {jwt : Jws}
    (h : v.checkKeyBinding f r front jwt = .ok ()) :
    ∃ d k b, v.Binds f r.claims r.digestAlgorithm front jwt d k b := by
  obtain ⟨k, b, h⟩ := checkKeyBinding_eq_ok_iff.1 h
  obtain ⟨d, hsigned, htype, hcontent⟩ := decodeKeyBinding_eq_ok h.decoded
  exact ⟨d, k, b, confirmationKey?_eq_some_iff.1 h.key, hsigned, htype, hcontent, h.tokenDigest,
    fun p hp => (checkChallenge_eq_ok (h.challenge p hp)).1,
    fun p hp => (checkChallenge_eq_ok (h.challenge p hp)).2, checkRecent_eq_ok h.recent,
    fun p hp hperiod => (checkLifetime_eq_ok (h.lifetime p hp hperiod)).1,
    fun p hp hperiod => (checkLifetime_eq_ok (h.lifetime p hp hperiod)).2⟩

theorem checkBinding_eq_ok {r : Revealed} {p : Presentation} {bound : Bool}
    (h : v.checkBinding f r p = .ok bound) :
    bound = p.keyBinding.isSome ∧ (v.policy.isSome → p.keyBinding.isSome) ∧
      ∀ jwt, p.keyBinding = some jwt →
        ∃ d k b, v.Binds f r.claims r.digestAlgorithm p.token.octets jwt d k b := by
  unfold checkBinding at h
  cases hkb : p.keyBinding with
  | none =>
    cases hp : v.policy with
    | none =>
      rw [hkb, hp] at h
      cases h
      exact ⟨rfl, id, fun jwt hjwt => nomatch hjwt⟩
    | some q =>
      rw [hkb, hp] at h
      cases h
  | some jwt =>
    simp only [hkb, bind_eq_ok_iff] at h
    obtain ⟨_, hbinding, h⟩ := h
    cases h
    refine ⟨rfl, fun _ => rfl, ?_⟩
    intro jwt' hjwt
    cases hjwt
    exact binds_of_checkKeyBinding hbinding

/-! ## Presentations -/

/-- All that holds of a presentation that is accepted: of its parts, the JWS of the issuer read, its
payload and the disclosures read. -/
structure Accepts (f : DigestFunction) (v : Verifier) (bs : Octets) (verified : Verified)
    (parts : Parts) (d : Jws.Decoded Octets) (payload : Payload) (ds : List Disclosure) :
    Prop where
  octets : bs = parts.octets
  segments : ∀ s ∈ parts.disclosures, Disclosure.isEncoded s = true
  content : Payload.ofOctets d.payload = .ok payload
  header : verified.header = d.header
  issued : ∃ issuer k,
    (∀ s, issuer = some s ↔ Members.get? payload.claims "iss" = some (.string s)) ∧
    v.resolver issuer d.header.keyId = .ok k ∧ parts.jwt.SignedBy v.check d k
  disclosures : parts.disclosures.map Disclosure.decode = ds.map .ok
  revealed : ∃ ps, payload.reveal f ds = .ok (verified.claims, ps) ∧
    verified.disclosures.Perm (ps.zip ds)
  entries : verified.disclosures.length = parts.disclosures.length
  dates : v.DatesHold verified.claims
  bound : verified.keyBindingVerified = parts.keyBinding.isSome
  required : v.policy.isSome → parts.keyBinding.isSome
  binding : ∀ jwt, parts.keyBinding = some jwt → ∃ e k b,
    v.Binds f verified.claims (payload.algorithm.getD .sha256)
      (Parts.octets { parts with keyBinding := none }) jwt e k b

theorem checkIssuer_eq_ok {jwt : Jws.Decoded Payload} (h : v.checkIssuer jwt = .ok ()) :
    ∃ k, v.resolver (issuerOf jwt.payload.claims) jwt.header.keyId = .ok k ∧
      jwt.verify v.check k = .ok true := by
  simp only [checkIssuer, bind_eq_ok_iff, mapError_eq_ok_iff, checkSigned_eq_ok_iff] at h
  exact h

theorem accepts_of_examine {bs : Octets} {verified : Verified}
    (h : v.examine f bs = .ok verified) :
    ∃ parts d payload ds, v.Accepts f bs verified parts d payload ds := by
  unfold examine at h
  cases hp : Presentation.ofOctets? bs with
  | none =>
    rw [hp] at h
    cases h
  | some p =>
    simp only [hp, bind_eq_ok_iff, mapError_eq_ok_iff] at h
    obtain ⟨t, ht, _, hissuer, r, hr, bound, hbound, _, hdates, h⟩ := h
    cases h
    obtain ⟨hoctets, hfront, hsegments⟩ := p.octets_parts
    obtain ⟨d, payload, hd, hpayload, hjwt, hds⟩ := Parts.decode_eq_ok_iff.1 ht
    have hclaims : t.jwt.payload = payload := by rw [hjwt]; rfl
    have hheader : t.jwt.header = d.header := by rw [hjwt]; rfl
    obtain ⟨k, hk, hverify⟩ := checkIssuer_eq_ok hissuer
    obtain ⟨hsorted, hvalues⟩ := Parts.sorted_of_decode ht
    obtain ⟨ps, hreveal, hrjwt, halgorithm, hperm, hlen⟩ :=
      Token.Decoded.reveal_eq_ok hsorted hvalues hr
    obtain ⟨hboundeq, hrequired, hbinding⟩ := checkBinding_eq_ok hbound
    have hcount : t.disclosures.length = p.parts.disclosures.length := by
      have hmap := congrArg List.length hds
      rw [List.length_map, List.length_map] at hmap
      exact hmap.symm
    refine ⟨p.parts, d, payload, t.disclosures, ?_⟩
    constructor
    case octets => rw [hoctets, Presentation.octets_of_ofOctets? hp]
    case segments => exact hsegments
    case content => exact hpayload
    case header => rw [hrjwt]; exact hheader
    case issued =>
      rw [hclaims, hheader] at hk
      refine ⟨_, k, fun _ => issuerOf_eq_some_iff, hk, Jws.signedBy_of_verify hd ?_⟩
      rw [hjwt] at hverify
      exact hverify
    case disclosures => exact hds
    case revealed => exact ⟨ps, hclaims ▸ hreveal, hperm⟩
    case entries =>
      rw [hperm.length_eq, List.length_zip, hlen, Nat.min_self, hcount]
    case dates => exact datesHold_of_checkDates hdates
    case bound => exact hboundeq
    case required => exact hrequired
    case binding =>
      intro jwt hjwt'
      obtain ⟨e, k, b, hb⟩ := hbinding jwt hjwt'
      refine ⟨e, k, b, ?_⟩
      rwa [hfront, Revealed.digestAlgorithm, halgorithm, hclaims] at hb

theorem verify_of_consumedNonce? (h : v.consumedNonce? = none) (registry : NonceRegistry)
    (bs : Octets) : v.verify f registry bs = (v.examine f bs, registry) := by
  rw [verify, h]
  cases v.examine f bs <;> rfl

/-- An accepted presentation passed every check. -/
theorem accepts_of_verify {registry registry' : NonceRegistry} {bs : Octets}
    {verified : Verified} (h : v.verify f registry bs = (.ok verified, registry')) :
    ∃ parts d payload ds, v.Accepts f bs verified parts d payload ds := by
  unfold verify at h
  cases he : v.examine f bs with
  | error e =>
    rw [he] at h
    cases h
  | ok verified' =>
    have hsame : verified' = verified := by
      rw [he] at h
      simp only at h
      cases hn : v.consumedNonce? with
      | none =>
        rw [hn] at h
        cases h
        rfl
      | some nonce =>
        rw [hn] at h
        simp only at h
        split at h
        · cases h
        · cases h
          rfl
    rw [hsame] at he
    exact accepts_of_examine he

/-- One disclosed member and the key of a holder, bound to the verifier `v` with the nonce `n`. -/
def boundPresentation : Octets := Octets.ofText <|
  "eyJhbGciOiJFUzI1NiJ9.eyJfc2QiOlsiQkdUeHlVZUZja0JqNDV3a3ZGaHl0UXpURWxOOTg1cTQ4czU4OURselpLd" ++
  "yJdLCJfc2RfYWxnIjoic2hhLTI1NiIsImNuZiI6eyJqd2siOnsia3R5IjoiRUMifX0sImV4cCI6MiwiaXNzIjoiaSJ" ++
  "9.AA~WyJzIiwiYSIsMV0~eyJhbGciOiJFUzI1NiIsInR5cCI6ImtiK2p3dCJ9.eyJhdWQiOiJ2Iiwibm9uY2UiOiJu" ++
  "IiwiaWF0IjoxLCJzZF9oYXNoIjoib1FyTktjZ25BbDdBa0xiTlFDdjh4VzBXd3p2aWlhR1AtR1ByYVk3VDloSSJ9.A" ++
  "A"

/-- Requires a key binding, in the first second of 1970, and takes every signature. -/
def trusting : Verifier where
  resolver _ _ := .ok (Jwk.ofCurve "P-256")
  check _ _ _ _ := .ok true
  clock := ⟨⟨1, 0, by decide, by decide⟩, .ofSeconds 60⟩
  policy := some { audience := "v", nonce := "n" }

theorem accepts_boundPresentation :
    ∃ verified registry,
      verify HashAlgorithm.digest trusting .empty boundPresentation = (.ok verified, registry) ∧
      ∃ parts d payload ds,
        trusting.Accepts HashAlgorithm.digest boundPresentation verified parts d payload ds := by
  have hok : (verify HashAlgorithm.digest trusting .empty boundPresentation).1.isOk = true := by
    decide +kernel
  rcases hv : verify HashAlgorithm.digest trusting .empty boundPresentation with
    ⟨outcome, registry⟩
  rw [hv] at hok
  obtain ⟨verified, rfl⟩ := exists_ok hok
  exact ⟨verified, registry, rfl, accepts_of_verify hv⟩

end Verifier

end SelectiveDisclosure
