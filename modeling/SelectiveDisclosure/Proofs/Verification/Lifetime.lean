import SelectiveDisclosure.Proofs.Compact
import SelectiveDisclosure.Proofs.Verification.Binding
import SelectiveDisclosure.Proofs.Verification.Completeness

/-!
# Lifetimes and what is withheld

A verifier reads the dates of a token from the claims that are revealed. So a presentation that has
expired, or is not valid yet, stays so whatever else is withheld from it, but not without the
disclosure of the date itself: an issuer may conceal a date like any claim.
-/

set_option autoImplicit false

namespace SelectiveDisclosure

open Json Reveal

/-! ## Periods -/

namespace Clock
variable {c : Clock}

theorem checkStart_cases (c : Clock) (start : Option Instant) :
    c.checkStart start = .ok () ∨ c.checkStart start = .error .noSuchInstant ∨
      ∃ t, c.checkStart start = .error (.premature c.now t) := by
  cases start with
  | none => exact .inl rfl
  | some t =>
    rw [checkStart]
    cases c.now.add? c.skew with
    | none => exact .inr (.inl rfl)
    | some latest =>
      by_cases h : latest < t
      · exact .inr (.inr ⟨t, if_pos h⟩)
      · exact .inl (if_neg h)

theorem checkEnd_cases (c : Clock) (stop : Option Instant) :
    c.checkEnd stop = .ok () ∨ c.checkEnd stop = .error .noSuchInstant ∨
      ∃ t, c.checkEnd stop = .error (.expired c.now t) := by
  cases stop with
  | none => exact .inl rfl
  | some t =>
    rw [checkEnd]
    cases c.now.sub? c.skew with
    | none => exact .inr (.inl rfl)
    | some earliest =>
      by_cases h : t ≤ earliest
      · exact .inr (.inr ⟨t, if_pos h⟩)
      · exact .inl (if_neg h)

end Clock

namespace Verifier
variable {f : DigestFunction} {v : Verifier} {start stop : Option Instant}

theorem checkPeriod_of_expired (h : v.checkPeriod start stop = .error .expired) :
    v.checkPeriod start none = .ok () ∧ v.checkPeriod none none = .ok () ∧
      v.checkPeriod none stop = .error .expired := by
  rw [checkPeriod, Clock.checkPeriod] at h
  simp only [checkPeriod, Clock.checkPeriod]
  obtain hs | hs | ⟨t, hs⟩ := v.clock.checkStart_cases start
  · rw [hs] at h ⊢
    exact ⟨rfl, rfl, h⟩
  · rw [hs] at h
    cases h
  · rw [hs] at h
    cases h

theorem checkPeriod_of_notYetValid (h : v.checkPeriod start stop = .error .notYetValid)
    (stop' : Option Instant) : v.checkPeriod start stop' = .error .notYetValid := by
  rw [checkPeriod, Clock.checkPeriod] at h ⊢
  obtain hs | hs | ⟨t, hs⟩ := v.clock.checkStart_cases start
  · have hend : (v.clock.checkEnd stop).mapError Rejection.ofPeriod = .error .notYetValid := by
      rw [hs] at h
      exact h
    obtain he | he | ⟨t, he⟩ := v.clock.checkEnd_cases stop <;> rw [he] at hend <;> cases hend
  · rw [hs] at h
    cases h
  · rw [hs]
    rfl

/-! ## Dates -/

variable {claims : Members} {name : String} {gone : List String → Bool} {e : Rejection}

theorem dateClaim_eq_error (h : dateClaim claims name = .error e) :
    e = .malformedPresentation (.date name) := by
  rw [dateClaim] at h
  split at h
  · cases h
  split at h
  · next d _ =>
    rw [instantOf] at h
    cases ht : d.toInstant? with
    | none =>
      rw [ht] at h
      exact (Except.error.inj h).symm
    | some t =>
      rw [ht] at h
      cases h
  · exact (Except.error.inj h).symm

/-- A date is a number, so nothing can be withheld from it but the date itself. -/
theorem dateClaim_withoutMembers {t : Option Instant} (h : dateClaim claims name = .ok t) :
    dateClaim (Value.withoutMembers gone claims) name =
      .ok (if gone [name] then none else t) := by
  by_cases hgone : gone [name] = true
  · rw [dateClaim, Value.get?_withoutMembers_eq, if_pos hgone, if_pos hgone]
  · rw [if_neg hgone, ← h, dateClaim, Value.get?_withoutMembers_eq, if_neg hgone, dateClaim]
    cases hget : Members.get? claims name with
    | none => rfl
    | some w =>
      cases w with
      | number n => rfl
      | _ =>
        rw [dateClaim, hget] at h
        cases h

theorem checkDates_of_dateClaim (hstart : dateClaim claims "nbf" = .ok start)
    (hstop : dateClaim claims "exp" = .ok stop) :
    v.checkDates claims = v.checkPeriod start stop := by
  rw [checkDates, hstart, hstop]
  rfl

theorem exists_dateClaim_of_checkDates (h : v.checkDates claims = .error e)
    (hread : ∀ name, e ≠ .malformedPresentation (.date name)) :
    ∃ start stop, dateClaim claims "nbf" = .ok start ∧ dateClaim claims "exp" = .ok stop ∧
      v.checkPeriod start stop = .error e := by
  cases hstart : dateClaim claims "nbf" with
  | error e' =>
    rw [checkDates, hstart] at h
    cases h
    exact absurd (dateClaim_eq_error hstart) (hread "nbf")
  | ok start =>
    cases hstop : dateClaim claims "exp" with
    | error e' =>
      rw [checkDates, hstart, hstop] at h
      cases h
      exact absurd (dateClaim_eq_error hstop) (hread "exp")
    | ok stop => exact ⟨start, stop, rfl, rfl, checkDates_of_dateClaim hstart hstop ▸ h⟩

theorem checkDates_withoutMembers_of_expired (h : v.checkDates claims = .error .expired) :
    v.checkDates (Value.withoutMembers gone claims) =
      if gone ["exp"] then .ok () else .error .expired := by
  obtain ⟨start, stop, hstart, hstop, hperiod⟩ :=
    exists_dateClaim_of_checkDates h fun name heq => by cases heq
  obtain ⟨hstarted, hfree, hended⟩ := checkPeriod_of_expired hperiod
  rw [checkDates_of_dateClaim (dateClaim_withoutMembers hstart) (dateClaim_withoutMembers hstop)]
  by_cases hexp : gone ["exp"] = true
  · rw [if_pos hexp, if_pos hexp]
    by_cases hnbf : gone ["nbf"] = true
    · rw [if_pos hnbf, hfree]
    · rw [if_neg hnbf, hstarted]
  · rw [if_neg hexp, if_neg hexp]
    by_cases hnbf : gone ["nbf"] = true
    · rw [if_pos hnbf, hended]
    · rw [if_neg hnbf, hperiod]

theorem checkDates_withoutMembers_of_notYetValid (h : v.checkDates claims = .error .notYetValid)
    (hnbf : gone ["nbf"] = false) :
    v.checkDates (Value.withoutMembers gone claims) = .error .notYetValid := by
  obtain ⟨start, stop, hstart, hstop, hperiod⟩ :=
    exists_dateClaim_of_checkDates h fun name heq => by cases heq
  rw [checkDates_of_dateClaim (dateClaim_withoutMembers hstart) (dateClaim_withoutMembers hstop),
    hnbf, if_neg Bool.false_ne_true]
  exact checkPeriod_of_notYetValid hperiod _

/-! ## Presentations without a key binding -/

theorem verify_of_policy_none (hpolicy : v.policy = none) (registry : NonceRegistry)
    (bs : Octets) : v.verify f registry bs = (v.examine f bs, registry) := by
  refine verify_of_consumedNonce? ?_ registry bs
  rw [consumedNonce?, hpolicy]
  rfl

theorem examine_of_unbound {jwt : Jws} {d : Jws.Decoded Octets} {payload : Payload}
    {ds : List Disclosure} {ps : List Pointer} (hpolicy : v.policy = none)
    (h : Reads f jwt d payload ds claims ps) :
    ∃ verified : Verified,
      v.examine f (Parts.octets ⟨jwt, ds.map Disclosure.encoded, none⟩) =
        (v.checkIssuer (d.withPayload payload) >>= fun _ =>
          v.checkDates claims >>= fun _ => .ok verified) := by
  obtain ⟨r, p, -, -, hparts, hexamine⟩ := examine_of_parts h v none
  have hunbound : v.checkBinding f r p = .ok false := by
    rw [checkBinding, show p.keyBinding = none from congrArg Parts.keyBinding hparts, hpolicy]
  rw [hunbound] at hexamine
  exact ⟨_, hexamine⟩

theorem error_of_bind_ok {x : Except Rejection Unit} {verified : Verified}
    (h : (x >>= fun _ => Except.ok verified) = .error e) : x = .error e := by
  cases x with
  | error e' => exact congrArg Except.error (Except.error.inj h)
  | ok _ => cases h

theorem checkIssuer_ne {jwt : Jws.Decoded Payload} (h : v.checkIssuer jwt = .error e) :
    e ≠ .expired ∧ e ≠ .notYetValid := by
  rw [checkIssuer] at h
  cases hk : v.resolver (issuerOf jwt.payload.claims) jwt.header.keyId with
  | error e' =>
    rw [hk] at h
    cases e' <;> cases h <;> constructor <;> intro heq <;> cases heq
  | ok k =>
    have hsigned : v.checkSigned jwt k .invalidSignature = .error e := by
      rw [hk] at h
      exact h
    rw [checkSigned] at hsigned
    split at hsigned
    · cases hsigned
    · cases hsigned
      constructor <;> intro heq <;> cases heq

end Verifier

/-! ## Selections -/

namespace Selection
variable {s : Selection} {r : Revealed} {placed : List (Disclosure × Pointer)}

/-- The claim of this name is disclosed by a disclosure that the selection does not need. -/
def Withholds (s : Selection) (r : Revealed) (name : String) : Prop :=
  ∃ place d, (place, d) ∈ r.disclosures ∧ place.decoded = [name] ∧ ¬s.Needs r place

theorem needs_iff_shows (hperm : r.disclosures.Perm (placed.map Prod.swap)) {place : Pointer} :
    s.Needs r place ↔ s.shows placed place = true := by
  rw [shows_iff]
  constructor
  · rintro ⟨q, d, hm, hs, h⟩
    rw [hperm.mem_iff, List.mem_map_swap d q] at hm
    exact ⟨d, q, hm, hs, h.imp Eq.symm id⟩
  · rintro ⟨d, q, hm, hs, h⟩
    rw [← List.mem_map_swap d q, ← hperm.mem_iff] at hm
    exact ⟨q, d, hm, hs, h.imp Eq.symm id⟩

theorem withholds_iff_hides (hperm : r.disclosures.Perm (placed.map Prod.swap)) {name : String} :
    s.Withholds r name ↔ s.hides placed [name] = true := by
  rw [hides, List.any_eq_true]
  constructor
  · rintro ⟨q, d, hm, hname, hneeds⟩
    rw [hperm.mem_iff, List.mem_map_swap d q] at hm
    rw [needs_iff_shows hperm] at hneeds
    exact ⟨(d, q), hm, by simp [hname, hneeds]⟩
  · rintro ⟨⟨d, q⟩, hm, h⟩
    rw [Bool.and_eq_true, decide_eq_true_eq, Bool.not_eq_true'] at h
    refine ⟨q, d, ?_, h.1, ?_⟩
    · rw [hperm.mem_iff, List.mem_map_swap d q]
      exact hm
    · rw [needs_iff_shows hperm, h.2]
      exact Bool.false_ne_true

theorem kept_of_forall (h : ∀ d p, (d, p) ∈ placed → s p d = true) :
    s.kept placed = placed.map Prod.fst := by
  rw [kept, List.filter_eq_self.2]
  rintro ⟨d, p⟩ hm
  exact shows_iff.2 ⟨d, p, hm, h d p hm, .inl rfl⟩

end Selection

namespace Verifier

/-- A presentation of all disclosures that has expired has expired with every other selection, but
for those that withhold `exp`: these are accepted. One that is not valid yet is not with any other
selection that does not withhold `nbf`. -/
theorem rejects_of_not_withholds (f : DigestFunction) (v : Verifier) (t : Token)
    (holder holder' : Signer) (all s : Selection) (full other : Octets)
    (registry registry' : NonceRegistry) (hpolicy : v.policy = none)
    (hfull : t.present f holder all none = .ok full)
    (hother : t.present f holder' s none = .ok other)
    (hall : ∀ r, t.reveal f = .ok r → ∀ place d, (place, d) ∈ r.disclosures → all place d = true) :
    ∃ r, t.reveal f = .ok r ∧
      (v.verify f registry full = (.error .expired, registry) →
        (¬s.Withholds r "exp" → v.verify f registry' other = (.error .expired, registry')) ∧
        (s.Withholds r "exp" →
          ∃ verified, v.verify f registry' other = (.ok verified, registry'))) ∧
      (v.verify f registry full = (.error .notYetValid, registry) →
        ¬s.Withholds r "nbf" →
          v.verify f registry' other = (.error .notYetValid, registry')) := by
  obtain ⟨r, -, hr, -⟩ := Token.exists_octets_of_present hfull
  obtain ⟨d, payload, ds, ps, hreads, hparts, hperm⟩ := Token.exists_reads_of_reveal hr
  have hds : (ds.zip ps).map Prod.fst = ds :=
    List.map_fst_zip (Nat.le_of_eq hreads.length_places.symm)
  have hkeptAll : all.kept (ds.zip ps) = ds := by
    rw [Selection.kept_of_forall, hds]
    intro e q hm
    refine hall r hr q e ?_
    rw [hperm.mem_iff, List.mem_map_swap e q]
    exact hm
  -- The two presentations have one JWS in front, and differ in what they reveal of its payload.
  obtain ⟨_, hanswers, hpresent⟩ := hreads.exists_present hparts holder all none nofun
  cases hanswers
  rw [hkeptAll, hfull] at hpresent
  obtain ⟨_, hanswers', hpresent'⟩ := hreads.exists_present hparts holder' s none nofun
  cases hanswers'
  rw [hother] at hpresent'
  obtain ⟨qs, hkept⟩ := hreads.keep s
  obtain ⟨verified, hexamine⟩ := examine_of_unbound hpolicy hreads
  obtain ⟨verified', hexamine'⟩ := examine_of_unbound hpolicy hkept
  rw [← Except.ok.inj hpresent] at hexamine
  rw [← Except.ok.inj hpresent'] at hexamine'
  refine ⟨r, hr, ?_⟩
  rw [verify_of_policy_none hpolicy, verify_of_policy_none hpolicy, hexamine, hexamine',
    Selection.withholds_iff_hides hperm, Selection.withholds_iff_hides hperm]
  cases hissuer : v.checkIssuer (d.withPayload payload) with
  | error e =>
    obtain ⟨hexpired, hpremature⟩ := checkIssuer_ne hissuer
    constructor
    · intro h
      exact absurd (Except.error.inj (Prod.mk.inj h).1) hexpired
    · intro h
      exact absurd (Except.error.inj (Prod.mk.inj h).1) hpremature
  | ok _ =>
    constructor
    · intro h
      have hdates := error_of_bind_ok (Prod.mk.inj h).1
      constructor
      · intro hshown
        show (v.checkDates _ >>= _, registry') = _
        rw [checkDates_withoutMembers_of_expired hdates, if_neg hshown]
        rfl
      · intro hhidden
        refine ⟨verified', ?_⟩
        show (v.checkDates _ >>= _, registry') = _
        rw [checkDates_withoutMembers_of_expired hdates, if_pos hhidden]
        rfl
    · intro h hshown
      have hdates := error_of_bind_ok (Prod.mk.inj h).1
      show (v.checkDates _ >>= _, registry') = _
      rw [checkDates_withoutMembers_of_notYetValid hdates (eq_false_of_ne_true hshown)]
      rfl

/-- Takes every signature and requires no key binding, a thousand seconds after the epoch. -/
def late : Verifier :=
  { undemanding with clock := ⟨⟨1000, 0, by decide, by decide⟩, .ofSeconds 60⟩ }

def expiringClaims : Members :=
  [("a", .bool true), ("exp", .number (.integer 0 (by decide)))]

def accepted? : Except Rejection Verified → Option Bool
  | .ok _ => some true
  | .error .expired => some false
  | .error _ => none

theorem accepted?_eq_some_true {x : Except Rejection Verified} (h : accepted? x = some true) :
    ∃ verified, x = .ok verified := by
  cases x with
  | ok verified => exact ⟨verified, rfl⟩
  | error e => cases e <;> cases h

theorem accepted?_eq_some_false {x : Except Rejection Verified} (h : accepted? x = some false) :
    x = .error .expired := by
  cases x with
  | ok verified => cases h
  | error e => cases e <;> first | rfl | cases h

/-- Conceals places of the claims that expire, and presents all of what is concealed and nothing of
it: the paths of the disclosures, and whether either presentation is accepted. -/
def outcomes? (places : List Pointer) : Option (List (List String) × Bool × Bool) := do
  let issued ← (Issuer.issue HashAlgorithm.digest ⟨.oneOctet, .sha256, 0, none⟩
    (fun n => [UInt8.ofNat n]) (.object expiringClaims) places none).toOption
  let t ← Token.ofOctets? issued.octets
  let r ← (t.reveal HashAlgorithm.digest).toOption
  let full ← (t.present HashAlgorithm.digest .oneOctet (fun _ _ => true) none).toOption
  let other ← (t.present HashAlgorithm.digest .oneOctet (fun _ _ => false) none).toOption
  let a ← accepted? (late.examine HashAlgorithm.digest full)
  let b ← accepted? (late.examine HashAlgorithm.digest other)
  return (r.disclosures.places.map Pointer.decoded, a, b)

theorem exists_of_outcomes? {places : List Pointer} {paths : List (List String)} {a b : Bool}
    (h : outcomes? places = some (paths, a, b)) :
    ∃ issued t r full other,
      Issuer.issue HashAlgorithm.digest ⟨.oneOctet, .sha256, 0, none⟩ (fun n => [UInt8.ofNat n])
        (.object expiringClaims) places none = .ok issued ∧
      Token.ofOctets? issued.octets = some t ∧ t.reveal HashAlgorithm.digest = .ok r ∧
      r.disclosures.places.map Pointer.decoded = paths ∧
      t.present HashAlgorithm.digest .oneOctet (fun _ _ => true) none = .ok full ∧
      t.present HashAlgorithm.digest .oneOctet (fun _ _ => false) none = .ok other ∧
      accepted? (late.examine HashAlgorithm.digest full) = some a ∧
      accepted? (late.examine HashAlgorithm.digest other) = some b := by
  simp only [outcomes?, Option.bind_eq_bind, Option.bind_eq_some_iff, toOption_eq_some_iff] at h
  obtain ⟨issued, hissue, t, ht, r, hr, full, hfull, other, hother, a', ha, b', hb, h⟩ := h
  cases h
  exact ⟨issued, t, r, full, other, hissue, ht, hr, rfl, hfull, hother, ha, hb⟩

/-- Another claim than the date is withheld. -/
theorem rejects_of_not_withholds_flag :
    ∃ issued t full other,
      Issuer.issue HashAlgorithm.digest ⟨.oneOctet, .sha256, 0, none⟩ (fun n => [UInt8.ofNat n])
        (.object expiringClaims) [⟨"/a", by decide⟩] none = .ok issued ∧
      Token.ofOctets? issued.octets = some t ∧
      t.present HashAlgorithm.digest .oneOctet (fun _ _ => true) none = .ok full ∧
      t.present HashAlgorithm.digest .oneOctet (fun _ _ => false) none = .ok other ∧
      late.policy = none ∧
      late.verify HashAlgorithm.digest .empty full = (.error .expired, .empty) ∧
      late.verify HashAlgorithm.digest .empty other = (.error .expired, .empty) := by
  have hrun : outcomes? [⟨"/a", by decide⟩] = some ([["a"]], false, false) := by decide +kernel
  obtain ⟨issued, t, r, full, other, hissue, ht, hr, hpaths, hfull, hother, hrejected, -⟩ :=
    exists_of_outcomes? hrun
  have hexpired : late.verify HashAlgorithm.digest .empty full = (.error .expired, .empty) := by
    rw [verify_of_policy_none rfl, accepted?_eq_some_false hrejected]
  obtain ⟨r', hr', hexp, -⟩ := rejects_of_not_withholds HashAlgorithm.digest late t .oneOctet
    .oneOctet (fun _ _ => true) (fun _ _ => false) full other .empty .empty rfl hfull hother
    (fun _ _ _ _ _ => rfl)
  obtain rfl := Except.ok.inj (hr.symm.trans hr')
  refine ⟨issued, t, full, other, hissue, ht, hfull, hother, rfl, hexpired, (hexp hexpired).1 ?_⟩
  rintro ⟨place, d, hm, hplace, -⟩
  have hmem : place.decoded ∈ r.disclosures.places.map Pointer.decoded :=
    List.mem_map_of_mem (List.mem_map_of_mem hm)
  rw [hpaths, hplace] at hmem
  exact absurd hmem (by decide)

/-- The date itself is withheld. -/
theorem accepts_of_withheld_expiry :
    ∃ issued t full other verified,
      Issuer.issue HashAlgorithm.digest ⟨.oneOctet, .sha256, 0, none⟩ (fun n => [UInt8.ofNat n])
        (.object expiringClaims) [⟨"/exp", by decide⟩] none = .ok issued ∧
      Token.ofOctets? issued.octets = some t ∧
      t.present HashAlgorithm.digest .oneOctet (fun _ _ => true) none = .ok full ∧
      t.present HashAlgorithm.digest .oneOctet (fun _ _ => false) none = .ok other ∧
      late.policy = none ∧
      late.verify HashAlgorithm.digest .empty full = (.error .expired, .empty) ∧
      late.verify HashAlgorithm.digest .empty other = (.ok verified, .empty) := by
  have hrun : outcomes? [⟨"/exp", by decide⟩] = some ([["exp"]], false, true) := by decide +kernel
  obtain ⟨issued, t, r, full, other, hissue, ht, -, -, hfull, hother, hrejected, haccepted⟩ :=
    exists_of_outcomes? hrun
  obtain ⟨verified, hverified⟩ := accepted?_eq_some_true haccepted
  refine ⟨issued, t, full, other, verified, hissue, ht, hfull, hother, rfl, ?_, ?_⟩
  · rw [verify_of_policy_none rfl, accepted?_eq_some_false hrejected]
  · rw [verify_of_policy_none rfl, hverified]

end Verifier

end SelectiveDisclosure
