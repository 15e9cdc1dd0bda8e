import SelectiveDisclosure.Proofs.Verification.Soundness

/-!
# Verification in time

The instants at which a verifier accepts a presentation have no gaps, and stay among those at which
it does when it tolerates more. Both hold as far as the sums of instants and durations exist, and
the first only outside the leap seconds, in which the sum with a duration may lose a second.
-/

set_option autoImplicit false

namespace SelectiveDisclosure

open Json

/-! ## Outcomes up to one error -/

/-- A computation gives the value, unless it fails with one error. -/
def GivesOr {ε α : Type} (e : ε) (x : Except ε α) (a : α) : Prop :=
  x = .ok a ∨ x = .error e

namespace GivesOr
variable {ε ε' α β : Type} {e : ε} {x : Except ε α} {g : α → Except ε β} {a : α} {b : β}

theorem of_ok (h : x = .ok a) : GivesOr e x a := .inl h

theorem bind (hx : GivesOr e x a) (hg : GivesOr e (g a) b) : GivesOr e (x >>= g) b := by
  rcases hx with rfl | rfl
  · exact hg
  · exact .inr rfl

theorem mapError {f : ε → ε'} (h : GivesOr e x a) : GivesOr (f e) (x.mapError f) a := by
  rcases h with rfl | rfl
  · exact .inl rfl
  · exact .inr rfl

end GivesOr

/-! ## Clocks -/

namespace Clock
variable {c : Clock} {t : Instant}

theorem checkStart_givesOr (h : ∀ latest, c.now.add? c.skew = some latest → t ≤ latest) :
    GivesOr .noSuchInstant (c.checkStart (some t)) () := by
  rw [checkStart]
  cases hl : c.now.add? c.skew with
  | none => exact .inr rfl
  | some latest => exact .inl (if_neg (Instant.not_lt.2 (h latest hl)))

theorem checkEnd_givesOr (h : ∀ earliest, c.now.sub? c.skew = some earliest → earliest < t) :
    GivesOr .noSuchInstant (c.checkEnd (some t)) () := by
  rw [checkEnd]
  cases he : c.now.sub? c.skew with
  | none => exact .inr rfl
  | some earliest => exact .inl (if_neg (Instant.not_le.2 (h earliest he)))

theorem isRecent?_ne_some_false {maxAge : Duration}
    (hback : ∀ oldest earliest, c.now.sub? maxAge = some oldest →
      oldest.sub? c.skew = some earliest → earliest ≤ t)
    (hcome : ∀ latest, c.now.add? c.skew = some latest → t ≤ latest) :
    c.isRecent? maxAge t ≠ some false := by
  intro h
  simp only [isRecent?, Option.bind_eq_bind, Option.bind_eq_some_iff] at h
  obtain ⟨oldest, ho, earliest, he, h⟩ := h
  rw [if_neg (Instant.not_lt.2 (hback oldest earliest ho he)), Option.bind_eq_some_iff] at h
  obtain ⟨latest, hl, h⟩ := h
  exact of_decide_eq_false (Option.some.inj h) (hcome latest hl)

end Clock

namespace Verifier
variable {f : DigestFunction} {v v₁ v₂ w : Verifier}

/-! ## Verifiers that differ in their tolerances -/

structure Alike (v w : Verifier) : Prop where
  resolver : w.resolver = v.resolver
  check : w.check = v.check
  policy : w.policy = v.policy.map fun p => { p with maxAge := w.maxAge }

theorem Alike.checkIssuer (h : Alike v w) (jwt : Jws.Decoded Payload) :
    w.checkIssuer jwt = v.checkIssuer jwt := by
  simp only [Verifier.checkIssuer, checkSigned, h.resolver, h.check]

theorem Alike.decodeKeyBinding (h : Alike v w) (k : Jwk) (jwt : Jws) :
    w.decodeKeyBinding k jwt = v.decodeKeyBinding k jwt := by
  simp only [Verifier.decodeKeyBinding, checkSigned, h.check]

/-- What one verifier takes to have started and another one takes not to have ended, a third one
takes to be both, as far as it can tell. -/
structure Between (v₁ v₂ w : Verifier) : Prop where
  alike₁ : Alike v₁ w
  alike₂ : Alike v₂ w
  latest : ∀ l₁ l, v₁.clock.now.add? v₁.clock.skew = some l₁ →
    w.clock.now.add? w.clock.skew = some l → l₁ ≤ l
  earliest : ∀ e₂ e, v₂.clock.now.sub? v₂.clock.skew = some e₂ →
    w.clock.now.sub? w.clock.skew = some e → e ≤ e₂
  oldest : ∀ t, t.nanoseconds = 0 → v₁.clock.IsRecent v₁.maxAge t →
    v₂.clock.IsRecent v₂.maxAge t → ∀ o e, w.clock.now.sub? w.maxAge = some o →
      o.sub? w.clock.skew = some e → e ≤ t

namespace Between

theorem checkPeriod (h : Between v₁ v₂ w) {start stop : Option Instant}
    (h₁ : v₁.checkPeriod start stop = .ok ()) (h₂ : v₂.checkPeriod start stop = .ok ()) :
    GivesOr .noSuchInstant (w.checkPeriod start stop) () := by
  have hstarted := (checkPeriod_eq_ok_iff.1 h₁).1
  have hended := (checkPeriod_eq_ok_iff.1 h₂).2
  have hstart : GivesOr .noSuchInstant (w.clock.checkStart start) () := by
    cases start with
    | none => exact .inl rfl
    | some t =>
      obtain ⟨l₁, hl₁, ht⟩ := hstarted t rfl
      exact Clock.checkStart_givesOr fun l hl => Instant.le_trans ht (h.latest l₁ l hl₁ hl)
  have hstop : GivesOr .noSuchInstant (w.clock.checkEnd stop) () := by
    cases stop with
    | none => exact .inl rfl
    | some t =>
      obtain ⟨e₂, he₂, ht⟩ := hended t rfl
      exact Clock.checkEnd_givesOr fun e he =>
        Instant.lt_of_le_of_lt (h.earliest e₂ e he₂ he) ht
  exact (hstart.bind hstop).mapError

theorem checkPeriod_of_reads (h : Between v₁ v₂ w) {x y : Except Rejection (Option Instant)}
    (h₁ : (x >>= fun start => y >>= fun stop => v₁.checkPeriod start stop) = .ok ())
    (h₂ : (x >>= fun start => y >>= fun stop => v₂.checkPeriod start stop) = .ok ()) :
    GivesOr .noSuchInstant (x >>= fun start => y >>= fun stop => w.checkPeriod start stop) () := by
  simp only [bind_eq_ok_iff] at h₁ h₂
  obtain ⟨start, hstart, stop, hstop, hperiod⟩ := h₁
  obtain ⟨start', hstart', stop', hstop', hperiod'⟩ := h₂
  obtain rfl := Except.ok.inj (hstart.symm.trans hstart')
  obtain rfl := Except.ok.inj (hstop.symm.trans hstop')
  exact .bind (.of_ok hstart) (.bind (.of_ok hstop) (h.checkPeriod hperiod hperiod'))

theorem checkDates (h : Between v₁ v₂ w) {claims : Members}
    (h₁ : v₁.checkDates claims = .ok ()) (h₂ : v₂.checkDates claims = .ok ()) :
    GivesOr .noSuchInstant (w.checkDates claims) () :=
  h.checkPeriod_of_reads h₁ h₂

theorem checkLifetime (h : Between v₁ v₂ w) {b : KeyBinding}
    (h₁ : v₁.checkLifetime b = .ok ()) (h₂ : v₂.checkLifetime b = .ok ()) :
    GivesOr .noSuchInstant (w.checkLifetime b) () :=
  h.checkPeriod_of_reads h₁ h₂

theorem checkRecent (h : Between v₁ v₂ w) {b : KeyBinding}
    (h₁ : v₁.checkRecent b = .ok ()) (h₂ : v₂.checkRecent b = .ok ()) :
    GivesOr .noSuchInstant (w.checkRecent b) () := by
  obtain ⟨t, ht, hrecent₁⟩ := checkRecent_eq_ok h₁
  obtain ⟨t', ht', hrecent₂⟩ := checkRecent_eq_ok h₂
  obtain rfl := Option.some.inj (ht.symm.trans ht')
  have hwhole : t.nanoseconds = 0 := (Instant.parts_of_ofParts? ht).2
  obtain ⟨-, -, l₁, -, -, hl₁, -, htl⟩ := id hrecent₁
  have hnot : w.clock.isRecent? w.maxAge t ≠ some false :=
    Clock.isRecent?_ne_some_false (h.oldest t hwhole hrecent₁ hrecent₂)
      fun l hl => Instant.le_trans htl (h.latest l₁ l hl₁ hl)
  refine .bind (.of_ok (instantOf_eq_ok_iff.2 ht)) ?_
  cases hr : w.clock.isRecent? w.maxAge t with
  | none => exact .inr rfl
  | some recent =>
    cases recent with
    | false => exact absurd hr hnot
    | true => exact .inl rfl

theorem checkKeyBinding (h : Between v₁ v₂ w) {r : Revealed} {front : Octets} {jwt : Jws}
    (h₁ : v₁.checkKeyBinding f r front jwt = .ok ())
    (h₂ : v₂.checkKeyBinding f r front jwt = .ok ()) :
    GivesOr .noSuchInstant (w.checkKeyBinding f r front jwt) () := by
  obtain ⟨k, b, h₁⟩ := checkKeyBinding_eq_ok_iff.1 h₁
  obtain ⟨k', b', h₂⟩ := checkKeyBinding_eq_ok_iff.1 h₂
  obtain rfl := Option.some.inj (h₁.key.symm.trans h₂.key)
  have hb : w.decodeKeyBinding k jwt = .ok b := (h.alike₁.decodeKeyBinding k jwt).trans h₁.decoded
  have hb' : w.decodeKeyBinding k jwt = .ok b' := (h.alike₂.decodeKeyBinding k jwt).trans h₂.decoded
  obtain rfl := Except.ok.inj (hb.symm.trans hb')
  have hrecent := h.checkRecent h₁.recent h₂.recent
  rw [Verifier.checkKeyBinding, h₁.key]
  refine .bind (.of_ok hb) ?_
  rw [if_neg (not_not_intro h₁.tokenDigest)]
  cases hp : w.policy with
  | none => exact hrecent
  | some p =>
    obtain ⟨p₁, hp₁, rfl⟩ := Option.map_eq_some_iff.1 (h.alike₁.policy.symm.trans hp)
    obtain ⟨p₂, hp₂, heq⟩ := Option.map_eq_some_iff.1 (h.alike₂.policy.symm.trans hp)
    have hperiod : p₂.checksPeriod = p₁.checksPeriod := by
      have hsame := congrArg KeyBindingPolicy.checksPeriod heq
      exact hsame
    refine .bind (.of_ok (h₁.challenge p₁ hp₁)) (.bind hrecent ?_)
    by_cases hchecks : p₁.checksPeriod = true
    · rw [if_pos hchecks]
      exact h.checkLifetime (h₁.lifetime p₁ hp₁ hchecks)
        (h₂.lifetime p₂ hp₂ (hperiod.trans hchecks))
    · rw [if_neg hchecks]
      exact .inl rfl

theorem checkBinding (h : Between v₁ v₂ w) {r : Revealed} {p : Presentation} {bound bound' : Bool}
    (h₁ : v₁.checkBinding f r p = .ok bound) (h₂ : v₂.checkBinding f r p = .ok bound') :
    GivesOr .noSuchInstant (w.checkBinding f r p) bound := by
  unfold Verifier.checkBinding at h₁ h₂ ⊢
  cases hkb : p.keyBinding with
  | some jwt =>
    simp only [hkb, bind_eq_ok_iff] at h₁ h₂
    obtain ⟨_, hbinding₁, h₁⟩ := h₁
    obtain ⟨_, hbinding₂, -⟩ := h₂
    cases h₁
    exact (h.checkKeyBinding hbinding₁ hbinding₂).bind (.inl rfl)
  | none =>
    rw [hkb] at h₁
    rw [h.alike₁.policy]
    cases hp : v₁.policy with
    | none =>
      rw [hp] at h₁
      exact .inl h₁
    | some q =>
      rw [hp] at h₁
      cases h₁

theorem examine (h : Between v₁ v₂ w) {bs : Octets} {verified verified' : Verified}
    (h₁ : v₁.examine f bs = .ok verified) (h₂ : v₂.examine f bs = .ok verified') :
    verified' = verified ∧ GivesOr .noSuchInstant (w.examine f bs) verified := by
  unfold Verifier.examine at h₁ h₂ ⊢
  cases hp : Presentation.ofOctets? bs with
  | none =>
    rw [hp] at h₁
    cases h₁
  | some p =>
    simp only [hp, bind_eq_ok_iff] at h₁ h₂
    obtain ⟨t, ht, _, hissuer, r, hr, bound, hbound, _, hdates, h₁⟩ := h₁
    obtain ⟨t', ht', _, -, r', hr', bound', hbound', _, hdates', h₂⟩ := h₂
    obtain rfl := Except.ok.inj (ht.symm.trans ht')
    obtain rfl := Except.ok.inj (hr.symm.trans hr')
    obtain rfl : bound = bound' :=
      (checkBinding_eq_ok hbound).1.trans (checkBinding_eq_ok hbound').1.symm
    cases h₁
    cases h₂
    rw [← h.alike₁.checkIssuer] at hissuer
    exact ⟨rfl, .bind (.of_ok ht) (.bind (.of_ok hissuer) (.bind (.of_ok hr)
      (.bind (h.checkBinding hbound hbound') (.bind (h.checkDates hdates hdates') (.inl rfl)))))⟩

end Between

/-! ## Acceptance in time -/

def evaluatedAt (v : Verifier) (t : Instant) : Verifier :=
  { v with clock := { v.clock with now := t } }

/-- The verifier with another skew and another age, which matters only under a policy. -/
def tolerating (v : Verifier) (skew maxAge : Duration) : Verifier :=
  { v with
    clock := { v.clock with skew := skew }
    policy := v.policy.map fun p => { p with maxAge := maxAge } }

theorem alike_evaluatedAt (v : Verifier) (t t' : Instant) :
    Alike (v.evaluatedAt t) (v.evaluatedAt t') := by
  refine ⟨rfl, rfl, ?_⟩
  simp only [evaluatedAt, maxAge]
  cases v.policy <;> rfl

theorem alike_tolerating (v : Verifier) (skew age : Duration) :
    Alike v (v.tolerating skew age) := by
  refine ⟨rfl, rfl, ?_⟩
  simp only [tolerating, maxAge]
  cases v.policy <;> rfl

/-- An instant between two others. It is in a leap second only if the two are in the same one.
Beside a leap second no skew is negative, and up to an instant in one no age. -/
structure Encloses (v : Verifier) (t₁ t t₂ : Instant) : Prop where
  first : t₁ ≤ t
  last : t ≤ t₂
  leap : t.IsLeap → t₁.IsLeap ∧ t₂.IsLeap ∧ t₁.seconds = t₂.seconds
  skew : ¬t.IsLeap → t₁.IsLeap ∨ t₂.IsLeap → 0 ≤ v.clock.skew.nanoseconds
  age : t₂.IsLeap → 0 ≤ v.maxAge.nanoseconds

theorem between_evaluatedAt {t₁ t t₂ : Instant} (h : v.Encloses t₁ t t₂) :
    Between (v.evaluatedAt t₁) (v.evaluatedAt t₂) (v.evaluatedAt t) where
  alike₁ := alike_evaluatedAt v t₁ t
  alike₂ := alike_evaluatedAt v t₂ t
  latest l₁ l h₁ h₂ :=
    (Instant.shifted_of_add? h₁).mono (Instant.shifted_of_add? h₂) h.first (Int.le_refl _)
      (fun hleap hn => h.skew hn (.inl hleap)) fun hn hleap => absurd (h.leap hleap).1 hn
  earliest e₂ e h₂ h₁ :=
    (Instant.shifted_of_sub? h₁).mono (Instant.shifted_of_sub? h₂) h.last (Int.le_refl _)
      (fun hleap hn => absurd (h.leap hleap).2.1 hn) fun hn hleap =>
        Int.neg_nonpos_of_nonneg (h.skew hn (.inr hleap))
  oldest n hwhole _ hrecent o e ho he := by
    obtain ⟨o₂, e₂, l₂, ho₂, he₂, hl₂, hle, hcome⟩ := hrecent
    have hshift := Instant.shifted_of_sub? ho
    have hshift₂ := Instant.shifted_of_sub? ho₂
    have hoo : o ≤ o₂ := hshift.mono hshift₂ h.last (Int.le_refl _)
      (fun hleap hn => absurd (h.leap hleap).2.1 hn) fun _ hleap =>
        Int.neg_nonpos_of_nonneg (h.age hleap)
    have hee : e ≤ e₂ := by
      refine (Instant.shifted_of_sub? he).mono (Instant.shifted_of_sub? he₂) hoo (Int.le_refl _)
        (fun hleap hn => ?_) fun _ hleap =>
          -- The key binding dates from a whole second, so this holds of any skew it passed.
          Int.neg_nonpos_of_nonneg (hshift₂.nonneg_of_whole hleap (Instant.shifted_of_sub? he₂)
            (Instant.shifted_of_add? hl₂) hwhole hle hcome)
      obtain ⟨-, hleap₂, hseconds⟩ := h.leap (hshift.leap_of_leap hleap)
      have hsame : t.seconds = t₂.seconds := by
        have hfirst := h.first
        have hlast := h.last
        rw [Instant.le_iff] at hfirst hlast
        omega
      exact absurd (hshift.isLeap_of_le hleap hshift₂ h.last hsame (Int.le_refl _)
        (Int.neg_nonpos_of_nonneg (h.age hleap₂))) hn
    exact Instant.le_trans hee hle

structure Tolerates (v : Verifier) (skew maxAge : Duration) : Prop where
  skew : v.clock.skew.nanoseconds ≤ skew.nanoseconds
  age : ∀ p, v.policy = some p → p.maxAge.nanoseconds ≤ maxAge.nanoseconds
  leap : v.clock.now.IsLeap → 0 ≤ v.maxAge.nanoseconds

theorem between_tolerating {skew maxAge : Duration} (h : v.Tolerates skew maxAge) :
    Between v v (v.tolerating skew maxAge) where
  alike₁ := alike_tolerating v skew maxAge
  alike₂ := alike_tolerating v skew maxAge
  latest l₁ l h₁ h₂ :=
    (Instant.shifted_of_add? h₁).mono_duration (Instant.shifted_of_add? h₂) h.skew
  earliest e₂ e h₂ h₁ :=
    (Instant.shifted_of_sub? h₁).mono_duration (Instant.shifted_of_sub? h₂)
      (Int.neg_le_neg h.skew)
  oldest n hwhole hrecent _ o e ho he := by
    obtain ⟨o', e', l, ho', he', hl, hle, hcome⟩ := hrecent
    have hage : v.maxAge.nanoseconds ≤ (v.tolerating skew maxAge).maxAge.nanoseconds := by
      have hmaxAge := h.age
      rw [Verifier.maxAge, Verifier.maxAge, tolerating]
      cases hp : v.policy with
      | none => exact Int.le_refl _
      | some p => exact hmaxAge p hp
    exact Instant.le_trans ((Instant.shifted_of_sub? ho').le_of_back (Instant.shifted_of_sub? he')
      (Instant.shifted_of_sub? ho) (Instant.shifted_of_sub? he) (Instant.shifted_of_add? hl) hage
      h.skew h.leap hwhole hle hcome) hle

theorem consumedNonce?_of_alike (h : Alike v w) : w.consumedNonce? = v.consumedNonce? := by
  rw [consumedNonce?, consumedNonce?, h.policy]
  cases v.policy <;> rfl

theorem Between.verify (h : Between v₁ v₂ w) (hnonce : w.consumedNonce? = none)
    {registry : NonceRegistry} {bs : Octets} {verified verified' : Verified}
    (h₁ : v₁.verify f registry bs = (.ok verified, registry))
    (h₂ : v₂.verify f registry bs = (.ok verified', registry))
    (hreckons : w.verify f registry bs ≠ (.error .noSuchInstant, registry)) :
    verified' = verified ∧ w.verify f registry bs = (.ok verified, registry) := by
  rw [verify_of_consumedNonce? ((consumedNonce?_of_alike h.alike₁).symm.trans hnonce)] at h₁
  rw [verify_of_consumedNonce? ((consumedNonce?_of_alike h.alike₂).symm.trans hnonce)] at h₂
  rw [verify_of_consumedNonce? hnonce] at hreckons ⊢
  obtain ⟨heq, hok | herror⟩ := h.examine (Prod.mk.inj h₁).1 (Prod.mk.inj h₂).1
  · exact ⟨heq, by rw [hok]⟩
  · exact absurd (by rw [herror]) hreckons

/-! ## In the first minute of 1970 -/

/-- The last second of the first minute, so many nanoseconds after it has begun. A leap second
follows it. -/
def lastSecond (n : Fin 2000000000) : Instant :=
  ⟨59, n, by decide, n.isLt⟩

/-- Requires a key binding, tolerates so much and evaluates it in the first minute of 1970. -/
def inFirstMinute (skew maxAge : Duration) (t : Instant) : Verifier :=
  (trusting.tolerating skew maxAge).evaluatedAt t

/-- Whether a presentation is accepted; nothing if it is rejected otherwise than as stale. -/
def fresh? : Except Rejection Verified → Option Bool
  | .ok _ => some true
  | .error .staleKeyBinding => some false
  | .error _ => none

theorem fresh?_eq_some_true {x : Except Rejection Verified} (h : fresh? x = some true) :
    ∃ verified, x = .ok verified := by
  cases x with
  | ok verified => exact ⟨verified, rfl⟩
  | error e => cases e <;> cases h

theorem fresh?_eq_some_false {x : Except Rejection Verified} (h : fresh? x = some false) :
    x = .error .staleKeyBinding := by
  cases x with
  | ok verified => cases h
  | error e => cases e <;> first | rfl | cases h

section FirstMinute
variable {skew maxAge : Duration} {t : Instant}

def freshAt? (skew maxAge : Duration) (t : Instant) : Option Bool :=
  fresh? ((inFirstMinute skew maxAge t).examine HashAlgorithm.digest boundPresentation)

theorem exists_of_freshAt? (h : freshAt? skew maxAge t = some true) :
    ∃ verified, (inFirstMinute skew maxAge t).verify HashAlgorithm.digest .empty
      boundPresentation = (.ok verified, .empty) := by
  obtain ⟨verified, hverified⟩ := fresh?_eq_some_true h
  exact ⟨verified, by rw [verify_of_consumedNonce? rfl, hverified]⟩

theorem verify_of_freshAt? (h : freshAt? skew maxAge t = some false) :
    (inFirstMinute skew maxAge t).verify HashAlgorithm.digest .empty boundPresentation =
      (.error .staleKeyBinding, .empty) := by
  rw [verify_of_consumedNonce? rfl, fresh?_eq_some_false h]

end FirstMinute

/-- In the leap second the instant moved back by the tolerances has not lost the second yet. Going
forward by a negative age loses it too. -/
theorem freshAt?_lastSecond :
    (freshAt? (.ofSeconds 60) (.ofSeconds 300) (lastSecond 0) = some true ∧
      freshAt? (.ofSeconds 60) (.ofSeconds 300) (lastSecond 900000000) = some true ∧
      freshAt? (.ofSeconds 60) (.ofSeconds 300) (lastSecond 1000000000) = some true ∧
      freshAt? (.ofSeconds 61) (.ofSeconds 301) (lastSecond 1000000000) = some true) ∧
    freshAt? (.ofSeconds 59) (.ofSeconds 0) (lastSecond 0) = some true ∧
      freshAt? (.ofSeconds 59) (.ofSeconds 0) (lastSecond 1300000000) = some false ∧
      freshAt? (.ofSeconds 59) (.ofSeconds 0) ⟨60, 0, by decide, by decide⟩ = some true ∧
      freshAt? (.ofSeconds 60) ⟨-1250000000⟩ (lastSecond 0) = some true ∧
      freshAt? (.ofSeconds 60) ⟨-1250000000⟩ (lastSecond 900000000) = some false ∧
      freshAt? (.ofSeconds 60) ⟨-1250000000⟩ (lastSecond 1000000000) = some true ∧
      freshAt? ⟨59150000000⟩ ⟨-800000000⟩ (lastSecond 1300000000) = some true ∧
      freshAt? ⟨59150000000⟩ ⟨-650000000⟩ (lastSecond 1300000000) = some false := by
  decide +kernel

/-- Claims that hold from the last second of the first minute up to the end of the second one. -/
def minutePresentation : Octets :=
  Octets.ofText "eyJhbGciOiJFUzI1NiJ9.eyJleHAiOjEyMCwibmJmIjo1OX0.AA~"

def ofMinute (skew : Duration) (t : Instant) : Verifier :=
  { inFirstMinute skew (.ofSeconds 0) t with policy := none }

/-- Whether a presentation comes too early, in time or too late; nothing if it is rejected
otherwise. -/
def timing? : Except Rejection Verified → Option Ordering
  | .ok _ => some .eq
  | .error .notYetValid => some .lt
  | .error .expired => some .gt
  | .error _ => none

theorem timing?_eq_some_eq {x : Except Rejection Verified} (h : timing? x = some .eq) :
    ∃ verified, x = .ok verified := by
  cases x with
  | ok verified => exact ⟨verified, rfl⟩
  | error e => cases e <;> cases h

theorem timing?_eq_some_lt {x : Except Rejection Verified} (h : timing? x = some .lt) :
    x = .error .notYetValid := by
  cases x with
  | ok verified => cases h
  | error e => cases e <;> first | rfl | cases h

theorem timing?_eq_some_gt {x : Except Rejection Verified} (h : timing? x = some .gt) :
    x = .error .expired := by
  cases x with
  | ok verified => cases h
  | error e => cases e <;> first | rfl | cases h

section Minute
variable {skew : Duration} {t : Instant}

def timingAt? (skew : Duration) (t : Instant) : Option Ordering :=
  timing? ((ofMinute skew t).examine HashAlgorithm.digest minutePresentation)

theorem exists_of_timingAt? (h : timingAt? skew t = some .eq) :
    ∃ verified, (ofMinute skew t).verify HashAlgorithm.digest .empty minutePresentation =
      (.ok verified, .empty) := by
  obtain ⟨verified, hverified⟩ := timing?_eq_some_eq h
  exact ⟨verified, by rw [verify_of_consumedNonce? rfl, hverified]⟩

theorem verify_of_timingAt?_lt (h : timingAt? skew t = some .lt) :
    (ofMinute skew t).verify HashAlgorithm.digest .empty minutePresentation =
      (.error .notYetValid, .empty) := by
  rw [verify_of_consumedNonce? rfl, timing?_eq_some_lt h]

theorem verify_of_timingAt?_gt (h : timingAt? skew t = some .gt) :
    (ofMinute skew t).verify HashAlgorithm.digest .empty minutePresentation =
      (.error .expired, .empty) := by
  rw [verify_of_consumedNonce? rfl, timing?_eq_some_gt h]

end Minute

/-- With a negative skew the claims hold in a leap second already and not yet behind it, or in one
still and no longer in front of it. -/
theorem timingAt?_minute :
    timingAt? ⟨-1500000000⟩ (lastSecond 1700000000) = some .eq ∧
      timingAt? ⟨-1500000000⟩ ⟨60, 0, by decide, by decide⟩ = some .lt ∧
      timingAt? ⟨-1500000000⟩ ⟨60, 600000000, by decide, by decide⟩ = some .eq ∧
      timingAt? ⟨-300000000⟩ ⟨119, 0, by decide, by decide⟩ = some .eq ∧
      timingAt? ⟨-300000000⟩ ⟨119, 900000000, by decide, by decide⟩ = some .gt ∧
      timingAt? ⟨-300000000⟩ ⟨119, 1000000000, by decide, by decide⟩ = some .eq := by
  decide +kernel

/-! ## Between instants, and with other tolerances -/

/-- As long as sums of instants and durations exist, a verifier that consumes no nonce accepts
between two instants what it accepts at both, and what it accepts it accepts when it tolerates
more, with one result. A leap second is between two instants only of its own. -/
theorem verify_of_encloses_of_tolerates (f : DigestFunction) (v : Verifier)
    (registry : NonceRegistry) (bs : Octets) (hnonce : v.consumedNonce? = none) :
    (∀ t₁ t t₂ verified₁ verified₂, v.Encloses t₁ t t₂ →
      (v.evaluatedAt t₁).verify f registry bs = (.ok verified₁, registry) →
      (v.evaluatedAt t₂).verify f registry bs = (.ok verified₂, registry) →
      (v.evaluatedAt t).verify f registry bs ≠ (.error .noSuchInstant, registry) →
      verified₂ = verified₁ ∧
        (v.evaluatedAt t).verify f registry bs = (.ok verified₁, registry)) ∧
    ∀ skew maxAge verified, v.Tolerates skew maxAge →
      v.verify f registry bs = (.ok verified, registry) →
      (v.tolerating skew maxAge).verify f registry bs ≠ (.error .noSuchInstant, registry) →
      (v.tolerating skew maxAge).verify f registry bs = (.ok verified, registry) := by
  constructor
  · intro t₁ t t₂ verified₁ verified₂ hencloses h₁ h₂ hreckons
    exact (between_evaluatedAt hencloses).verify hnonce h₁ h₂ hreckons
  · intro skew maxAge verified htolerates h hreckons
    have hsame := (consumedNonce?_of_alike (alike_tolerating v skew maxAge)).trans hnonce
    exact ((between_tolerating htolerates).verify hsame h h hreckons).2

theorem verify_of_encloses_of_tolerates_lastSecond :
    ∃ verified,
      (inFirstMinute (.ofSeconds 60) (.ofSeconds 300) (lastSecond 900000000)).verify
        HashAlgorithm.digest .empty boundPresentation = (.ok verified, .empty) ∧
      (inFirstMinute (.ofSeconds 61) (.ofSeconds 301) (lastSecond 1000000000)).verify
        HashAlgorithm.digest .empty boundPresentation = (.ok verified, .empty) := by
  obtain ⟨⟨h₁, h, h₂, hmore⟩, -⟩ := freshAt?_lastSecond
  obtain ⟨verified₁, h₁⟩ := exists_of_freshAt? h₁
  obtain ⟨verified, h⟩ := exists_of_freshAt? h
  obtain ⟨verified₂, h₂⟩ := exists_of_freshAt? h₂
  obtain ⟨accepted, hmore⟩ := exists_of_freshAt? hmore
  obtain ⟨hbetween, htolerating⟩ := verify_of_encloses_of_tolerates HashAlgorithm.digest
    (inFirstMinute (.ofSeconds 60) (.ofSeconds 300) (lastSecond 1000000000)) .empty
    boundPresentation rfl
  have hencloses : (inFirstMinute (.ofSeconds 60) (.ofSeconds 300) (lastSecond 1000000000)).Encloses
      (lastSecond 0) (lastSecond 900000000) (lastSecond 1000000000) :=
    ⟨by decide, by decide, by decide, by decide, by decide⟩
  have htolerates : (inFirstMinute (.ofSeconds 60) (.ofSeconds 300)
      (lastSecond 1000000000)).Tolerates (.ofSeconds 61) (.ofSeconds 301) := by
    refine ⟨by decide, ?_, by decide⟩
    rintro p ⟨⟩
    decide
  obtain ⟨rfl, hin⟩ := hbetween _ _ _ verified₁ verified₂ hencloses h₁ h₂ fun herror =>
    nomatch h.symm.trans herror
  exact ⟨_, hin, htolerating _ _ _ htolerates h₂ fun herror => nomatch hmore.symm.trans herror⟩

/-- Accepted before a leap second and behind it, but not in it. With a negative age, accepted in the
leap second and rejected shortly before, or accepted there with this age and not with a greater
one. With a negative skew, accepted in the leap second and rejected shortly behind it or before. -/
theorem rejects_around_leapSecond :
    (∃ verified verified',
      (inFirstMinute (.ofSeconds 59) (.ofSeconds 0) (lastSecond 0)).verify HashAlgorithm.digest
        .empty boundPresentation = (.ok verified, .empty) ∧
      (inFirstMinute (.ofSeconds 59) (.ofSeconds 0) ⟨60, 0, by decide, by decide⟩).verify
        HashAlgorithm.digest .empty boundPresentation = (.ok verified', .empty) ∧
      lastSecond 0 ≤ lastSecond 1300000000 ∧
      lastSecond 1300000000 ≤ ⟨60, 0, by decide, by decide⟩ ∧
      (inFirstMinute (.ofSeconds 59) (.ofSeconds 0) (lastSecond 1300000000)).verify
        HashAlgorithm.digest .empty boundPresentation = (.error .staleKeyBinding, .empty)) ∧
    (∃ verified verified',
      (inFirstMinute (.ofSeconds 60) ⟨-1250000000⟩ (lastSecond 0)).verify HashAlgorithm.digest
        .empty boundPresentation = (.ok verified, .empty) ∧
      (inFirstMinute (.ofSeconds 60) ⟨-1250000000⟩ (lastSecond 1000000000)).verify
        HashAlgorithm.digest .empty boundPresentation = (.ok verified', .empty) ∧
      lastSecond 0 ≤ lastSecond 900000000 ∧ lastSecond 900000000 ≤ lastSecond 1000000000 ∧
      (inFirstMinute (.ofSeconds 60) ⟨-1250000000⟩ (lastSecond 900000000)).verify
        HashAlgorithm.digest .empty boundPresentation = (.error .staleKeyBinding, .empty)) ∧
    (∃ verified,
      (inFirstMinute ⟨59150000000⟩ ⟨-800000000⟩ (lastSecond 1300000000)).verify
        HashAlgorithm.digest .empty boundPresentation = (.ok verified, .empty) ∧
      (inFirstMinute ⟨59150000000⟩ ⟨-650000000⟩ (lastSecond 1300000000)).verify
        HashAlgorithm.digest .empty boundPresentation = (.error .staleKeyBinding, .empty)) ∧
    (∃ verified verified',
      (ofMinute ⟨-1500000000⟩ (lastSecond 1700000000)).verify HashAlgorithm.digest .empty
        minutePresentation = (.ok verified, .empty) ∧
      (ofMinute ⟨-1500000000⟩ ⟨60, 600000000, by decide, by decide⟩).verify HashAlgorithm.digest
        .empty minutePresentation = (.ok verified', .empty) ∧
      lastSecond 1700000000 ≤ ⟨60, 0, by decide, by decide⟩ ∧
      (⟨60, 0, by decide, by decide⟩ : Instant) ≤ ⟨60, 600000000, by decide, by decide⟩ ∧
      (ofMinute ⟨-1500000000⟩ ⟨60, 0, by decide, by decide⟩).verify HashAlgorithm.digest
        .empty minutePresentation = (.error .notYetValid, .empty)) ∧
    ∃ verified verified',
      (ofMinute ⟨-300000000⟩ ⟨119, 0, by decide, by decide⟩).verify HashAlgorithm.digest .empty
        minutePresentation = (.ok verified, .empty) ∧
      (ofMinute ⟨-300000000⟩ ⟨119, 1000000000, by decide, by decide⟩).verify HashAlgorithm.digest
        .empty minutePresentation = (.ok verified', .empty) ∧
      (⟨119, 0, by decide, by decide⟩ : Instant) ≤ ⟨119, 900000000, by decide, by decide⟩ ∧
      (⟨119, 900000000, by decide, by decide⟩ : Instant) ≤
        ⟨119, 1000000000, by decide, by decide⟩ ∧
      (ofMinute ⟨-300000000⟩ ⟨119, 900000000, by decide, by decide⟩).verify HashAlgorithm.digest
        .empty minutePresentation = (.error .expired, .empty) := by
  obtain ⟨-, h₁, h, h₂, k₁, k, k₂, m, m'⟩ := freshAt?_lastSecond
  obtain ⟨verified₁, h₁⟩ := exists_of_freshAt? h₁
  obtain ⟨verified₂, h₂⟩ := exists_of_freshAt? h₂
  obtain ⟨accepted₁, k₁⟩ := exists_of_freshAt? k₁
  obtain ⟨accepted₂, k₂⟩ := exists_of_freshAt? k₂
  obtain ⟨verified, m⟩ := exists_of_freshAt? m
  obtain ⟨b₁, b, b₂, e₁, e, e₂⟩ := timingAt?_minute
  obtain ⟨begun₁, b₁⟩ := exists_of_timingAt? b₁
  obtain ⟨begun₂, b₂⟩ := exists_of_timingAt? b₂
  obtain ⟨ended₁, e₁⟩ := exists_of_timingAt? e₁
  obtain ⟨ended₂, e₂⟩ := exists_of_timingAt? e₂
  refine ⟨⟨verified₁, verified₂, h₁, h₂, ?_, ?_, verify_of_freshAt? h⟩,
    ⟨accepted₁, accepted₂, k₁, k₂, ?_, ?_, verify_of_freshAt? k⟩,
    ⟨verified, m, verify_of_freshAt? m'⟩,
    ⟨begun₁, begun₂, b₁, b₂, ?_, ?_, verify_of_timingAt?_lt b⟩,
    ended₁, ended₂, e₁, e₂, ?_, ?_, verify_of_timingAt?_gt e⟩
  all_goals decide

end Verifier

end SelectiveDisclosure
