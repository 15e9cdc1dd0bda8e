import Mathlib.Logic.Function.Basic
import Mathlib.Logic.Relation
import SelectiveDisclosure.Proofs.Verification.Binding

/-!
# One acceptance for each nonce

Any number of calls to verifiers share one registry. A call examines its presentation without the
registry, and consumes the nonce of its policy in one step at its end; in between, the others may
take any of theirs. At every moment the registry holds the nonces it began with and those of the
calls accepted so far, and no two of these have the same.
-/

set_option autoImplicit false

namespace SelectiveDisclosure

namespace NonceRegistry
variable {r r' : NonceRegistry} {nonce : String}

theorem consume?_eq_some_iff :
    r.consume? nonce = some r' ↔ nonce ∉ r.consumed ∧ ⟨nonce :: r.consumed⟩ = r' := by
  rw [consume?]
  split <;> simp_all

end NonceRegistry

namespace Verifier
variable {f : DigestFunction} {v : Verifier} {registry registry' : NonceRegistry}
  {verified : Verified} {answer : Except Rejection Verified}

def conclude (v : Verifier) (verified : Verified) (registry : NonceRegistry) :
    Except Rejection Verified × NonceRegistry :=
  match v.consumedNonce? with
  | none => (.ok verified, registry)
  | some nonce =>
    match registry.consume? nonce with
    | none => (.error .nonceMismatch, registry)
    | some registry => (.ok verified, registry)

theorem conclude_cases (h : v.conclude verified registry = (answer, registry')) :
    (v.consumedNonce? = none ∧ registry' = registry) ∨
      (answer = .error .nonceMismatch ∧ registry' = registry) ∨
      ∃ nonce, v.consumedNonce? = some nonce ∧ answer = .ok verified ∧
        nonce ∉ registry.consumed ∧ registry' = ⟨nonce :: registry.consumed⟩ := by
  rw [conclude] at h
  cases hn : v.consumedNonce? with
  | none =>
    simp only [hn, Prod.mk.injEq] at h
    exact .inl ⟨rfl, h.2.symm⟩
  | some nonce =>
    simp only [hn] at h
    cases hc : registry.consume? nonce with
    | none =>
      simp only [hc, Prod.mk.injEq] at h
      exact .inr (.inl ⟨h.1.symm, h.2.symm⟩)
    | some r =>
      simp only [hc, Prod.mk.injEq] at h
      obtain ⟨hfresh, rfl⟩ := NonceRegistry.consume?_eq_some_iff.1 hc
      exact .inr (.inr ⟨nonce, rfl, h.1.symm, hfresh, h.2.symm⟩)

end Verifier

/-! ## Calls -/

structure Call where
  verifier : Verifier
  presentation : Octets

namespace Call

inductive Stage where
  | examining
  | examined (verified : Verified)
  | answered (answer : Except Rejection Verified)

def examine (f : DigestFunction) (c : Call) : Except Rejection Verified :=
  c.verifier.examine f c.presentation

def verify (f : DigestFunction) (c : Call) (registry : NonceRegistry) :
    Except Rejection Verified × NonceRegistry :=
  c.verifier.verify f registry c.presentation

variable {f : DigestFunction} {c : Call} {registry : NonceRegistry}

theorem verify_of_refused {e : Rejection} (h : c.examine f = .error e) :
    c.verify f registry = (.error e, registry) := by
  rw [examine] at h
  rw [verify, Verifier.verify, h]

theorem verify_of_passed {verified : Verified} (h : c.examine f = .ok verified) :
    c.verify f registry = c.verifier.conclude verified registry := by
  rw [examine] at h
  rw [verify, Verifier.verify, h]
  rfl

end Call

structure Calls (ι : Type) where
  registry : NonceRegistry
  stage : ι → Call.Stage

namespace Calls
variable {ι : Type}

def start (registry : NonceRegistry) : Calls ι :=
  ⟨registry, fun _ => .examining⟩

/-- The call has been accepted, and its verifier consumes this nonce. -/
def Accepts (calls : ι → Call) (s : Calls ι) (i : ι) (nonce : String) : Prop :=
  (∃ verified, s.stage i = .answered (.ok verified)) ∧
    (calls i).verifier.consumedNonce? = some nonce

theorem not_accepts_of_stage {calls : ι → Call} {s : Calls ι} {i : ι} {stage : Call.Stage}
    (hstage : s.stage i = stage) (h : ∀ verified, stage ≠ .answered (.ok verified))
    (nonce : String) : ¬Accepts calls s i nonce := by
  rintro ⟨⟨verified, ha⟩, -⟩
  exact h verified (hstage.symm.trans ha)

variable [DecidableEq ι]

def advance (s : Calls ι) (i : ι) (stage : Call.Stage) (registry : NonceRegistry) : Calls ι :=
  ⟨registry, Function.update s.stage i stage⟩

theorem stage_advance_self (s : Calls ι) (i : ι) (stage : Call.Stage) (registry : NonceRegistry) :
    (s.advance i stage registry).stage i = stage :=
  Function.update_self ..

theorem stage_advance_of_ne (s : Calls ι) {i j : ι} (stage : Call.Stage)
    (registry : NonceRegistry) (h : j ≠ i) :
    (s.advance i stage registry).stage j = s.stage j :=
  Function.update_of_ne h ..

theorem advance_advance (s : Calls ι) (i : ι) (stage stage' : Call.Stage)
    (registry registry' : NonceRegistry) :
    (s.advance i stage registry).advance i stage' registry' = s.advance i stage' registry' := by
  simp only [advance, Function.update_idem]

/-- One step of one call. An examination does not depend on the registry, so it does not matter
how it mixes with the steps of others, and it is one step here. -/
inductive Step (f : DigestFunction) (calls : ι → Call) (i : ι) : Calls ι → Calls ι → Prop where
  | refuse {s : Calls ι} {e : Rejection} (examining : s.stage i = .examining)
      (refused : (calls i).examine f = .error e) :
      Step f calls i s (s.advance i (.answered (.error e)) s.registry)
  | pass {s : Calls ι} {verified : Verified} (examining : s.stage i = .examining)
      (passed : (calls i).examine f = .ok verified) :
      Step f calls i s (s.advance i (.examined verified) s.registry)
  | conclude {s : Calls ι} {verified : Verified} {answer : Except Rejection Verified}
      {registry : NonceRegistry} (examined : s.stage i = .examined verified)
      (concluded : (calls i).verifier.conclude verified s.registry = (answer, registry)) :
      Step f calls i s (s.advance i (.answered answer) registry)

def Runs (f : DigestFunction) (calls : ι → Call) : Calls ι → Calls ι → Prop :=
  Relation.ReflTransGen fun s s' => ∃ i, Step f calls i s s'

section Step
variable {f : DigestFunction} {calls : ι → Call} {s s' : Calls ι} {i j : ι}

theorem Step.stage_of_ne (h : Step f calls i s s') (hne : j ≠ i) : s'.stage j = s.stage j := by
  cases h <;> exact stage_advance_of_ne _ _ _ hne

theorem Step.not_answered (h : Step f calls i s s') (answer : Except Rejection Verified) :
    s.stage i ≠ .answered answer := by
  intro ha
  cases h <;> simp_all

theorem Step.answered (h : Step f calls i s s') {answer : Except Rejection Verified}
    (ha : s.stage j = .answered answer) : s'.stage j = .answered answer := by
  by_cases hne : j = i
  · subst hne
    exact absurd ha (h.not_answered answer)
  · rw [h.stage_of_ne hne, ha]

theorem Step.accepts_iff_of_ne (h : Step f calls i s s') (hne : j ≠ i) {nonce : String} :
    Accepts calls s' j nonce ↔ Accepts calls s j nonce := by
  rw [Accepts, Accepts, h.stage_of_ne hne]

theorem Step.not_accepts (h : Step f calls i s s') (nonce : String) :
    ¬Accepts calls s i nonce := by
  rintro ⟨⟨verified, ha⟩, -⟩
  exact h.not_answered _ ha

theorem Step.registry_cases (h : Step f calls i s s') :
    (s'.registry = s.registry ∧ ∀ nonce, ¬Accepts calls s' i nonce) ∨
      ∃ nonce, Accepts calls s' i nonce ∧ nonce ∉ s.registry.consumed ∧
        s'.registry = ⟨nonce :: s.registry.consumed⟩ := by
  cases h with
  | refuse => exact .inl ⟨rfl, not_accepts_of_stage (stage_advance_self ..) fun _ ha => by cases ha⟩
  | pass => exact .inl ⟨rfl, not_accepts_of_stage (stage_advance_self ..) fun _ ha => by cases ha⟩
  | @conclude verified answer registry _ hconcluded =>
    obtain ⟨hnone, rfl⟩ | ⟨rfl, rfl⟩ | ⟨nonce, hn, rfl, hnew, rfl⟩ :=
      Verifier.conclude_cases hconcluded
    · refine .inl ⟨rfl, ?_⟩
      rintro nonce ⟨-, hn⟩
      rw [hnone] at hn
      cases hn
    · exact .inl ⟨rfl, not_accepts_of_stage (stage_advance_self ..) fun _ ha => by cases ha⟩
    · exact .inr ⟨nonce, ⟨⟨verified, stage_advance_self ..⟩, hn⟩, hnew, rfl⟩

/-- A step leaves the registry as it is and no call is accepted by it with a nonce; or it adds the
nonce with which its call is. -/
theorem Step.accepts_cases (h : Step f calls i s s') :
    (s'.registry = s.registry ∧
        ∀ j nonce, Accepts calls s' j nonce ↔ Accepts calls s j nonce) ∨
      ∃ new, new ∉ s.registry.consumed ∧ s'.registry = ⟨new :: s.registry.consumed⟩ ∧
        ∀ j nonce, Accepts calls s' j nonce ↔ (j = i ∧ nonce = new) ∨ Accepts calls s j nonce := by
  obtain ⟨hregistry, hquiet⟩ | ⟨new, haccepts, hnew, hregistry⟩ := h.registry_cases
  · refine .inl ⟨hregistry, fun j nonce => ?_⟩
    by_cases hne : j = i
    · subst hne
      exact iff_of_false (hquiet nonce) (h.not_accepts nonce)
    · exact h.accepts_iff_of_ne hne
  · refine .inr ⟨new, hnew, hregistry, fun j nonce => ?_⟩
    by_cases hne : j = i
    · subst hne
      have hnonce : Accepts calls s' j nonce ↔ nonce = new := by
        constructor
        · exact fun ha => Option.some.inj (ha.2.symm.trans haccepts.2)
        · rintro rfl
          exact haccepts
      simp [hnonce, h.not_accepts nonce]
    · simp [h.accepts_iff_of_ne hne, hne]

theorem Step.examined (h : Step f calls i s s') {verified : Verified}
    (hstage : s'.stage i = .examined verified) : (calls i).examine f = .ok verified := by
  cases h with
  | refuse =>
    rw [stage_advance_self] at hstage
    cases hstage
  | pass _ hpassed =>
    rw [stage_advance_self] at hstage
    cases hstage
    exact hpassed
  | conclude =>
    rw [stage_advance_self] at hstage
    cases hstage

end Step

/-! ## Runs -/

/-- What the calls have done to the registry so far. -/
structure Consistent (f : DigestFunction) (calls : ι → Call) (registry : NonceRegistry)
    (s : Calls ι) : Prop where
  examined : ∀ i verified, s.stage i = .examined verified →
    (calls i).examine f = .ok verified
  consumed : ∀ nonce, nonce ∈ s.registry.consumed ↔
    nonce ∈ registry.consumed ∨ ∃ i, Accepts calls s i nonce
  fresh : ∀ nonce i, Accepts calls s i nonce → nonce ∉ registry.consumed
  once : ∀ nonce i j, Accepts calls s i nonce → Accepts calls s j nonce → i = j

section Consistent
variable {f : DigestFunction} {calls : ι → Call} {registry : NonceRegistry} {s s' : Calls ι}
  {i : ι}

omit [DecidableEq ι] in
theorem consistent_start (f : DigestFunction) (calls : ι → Call) (registry : NonceRegistry) :
    Consistent f calls registry (start registry) := by
  have hnone : ∀ i nonce, ¬Accepts calls (start registry) i nonce :=
    fun i => not_accepts_of_stage rfl fun _ ha => by cases ha
  constructor
  case examined =>
    intro i verified hstage
    cases hstage
  case consumed =>
    intro nonce
    simp only [hnone, exists_false, or_false]
    rfl
  case fresh => exact fun nonce i ha => absurd ha (hnone i nonce)
  case once => exact fun nonce i _ ha => absurd ha (hnone i nonce)

theorem Consistent.step (hs : Consistent f calls registry s) (h : Step f calls i s s') :
    Consistent f calls registry s' := by
  have hexamined : ∀ j verified, s'.stage j = .examined verified →
      (calls j).examine f = .ok verified := by
    intro j verified hstage
    by_cases hne : j = i
    · subst hne
      exact h.examined hstage
    · rw [h.stage_of_ne hne] at hstage
      exact hs.examined j verified hstage
  obtain ⟨hregistry, hsame⟩ | ⟨new, hnew, hregistry, haccepts⟩ := h.accepts_cases
  · constructor
    case examined => exact hexamined
    case consumed => simpa only [hregistry, hsame] using hs.consumed
    case fresh => simpa only [hsame] using hs.fresh
    case once => simpa only [hsame] using hs.once
  · -- The new nonce was not consumed, so it is neither an old one nor that of another call.
    rw [hs.consumed, not_or, not_exists] at hnew
    obtain ⟨hfresh, hnone⟩ := hnew
    constructor
    case examined => exact hexamined
    case consumed =>
      intro nonce
      simp only [hregistry, List.mem_cons, hs.consumed, haccepts, exists_or, exists_and_right,
        exists_eq, true_and]
      exact or_left_comm
    case fresh =>
      intro nonce j ha
      obtain ⟨-, rfl⟩ | ha := (haccepts j nonce).1 ha
      · exact hfresh
      · exact hs.fresh nonce j ha
    case once =>
      intro nonce j k hj hk
      obtain ⟨rfl, rfl⟩ | hj := (haccepts j nonce).1 hj
      · obtain ⟨rfl, -⟩ | hk := (haccepts k nonce).1 hk
        · rfl
        · exact absurd hk (hnone k)
      · obtain ⟨-, rfl⟩ | hk := (haccepts k nonce).1 hk
        · exact absurd hj (hnone j)
        · exact hs.once nonce j k hj hk

theorem Consistent.runs (hs : Consistent f calls registry s) (h : Runs f calls s s') :
    Consistent f calls registry s' := by
  induction h with
  | refl => exact hs
  | tail _ hstep ih =>
    obtain ⟨i, hstep⟩ := hstep
    exact ih.step hstep

theorem Runs.answered (h : Runs f calls s s') {answer : Except Rejection Verified}
    (ha : s.stage i = .answered answer) : s'.stage i = .answered answer := by
  induction h with
  | refl => exact ha
  | tail _ hstep ih =>
    obtain ⟨j, hstep⟩ := hstep
    exact hstep.answered ih

/-- With the step that answers it, a call has done what it would have done at once there. -/
theorem Consistent.verify_eq (hs : Consistent f calls registry s) (h : Step f calls i s s')
    {answer : Except Rejection Verified} (ha : s'.stage i = .answered answer) :
    (calls i).verify f s.registry = (answer, s'.registry) := by
  cases h with
  | refuse _ hrefused =>
    rw [stage_advance_self] at ha
    cases ha
    exact Call.verify_of_refused hrefused
  | pass =>
    rw [stage_advance_self] at ha
    cases ha
  | @conclude verified _ _ hexamined hconcluded =>
    rw [stage_advance_self] at ha
    cases ha
    rw [Call.verify_of_passed (hs.examined i verified hexamined), hconcluded]
    rfl

theorem runs_verify (hstage : s.stage i = .examining) :
    Runs f calls s (s.advance i (.answered ((calls i).verify f s.registry).1)
      ((calls i).verify f s.registry).2) := by
  cases hexamine : (calls i).examine f with
  | error e =>
    rw [Call.verify_of_refused hexamine]
    exact .single ⟨i, .refuse hstage hexamine⟩
  | ok verified =>
    rw [Call.verify_of_passed hexamine]
    have hconclude : Step f calls i (s.advance i (.examined verified) s.registry) _ :=
      .conclude (stage_advance_self ..) rfl
    rw [advance_advance] at hconclude
    exact .tail (.single ⟨i, .pass hstage hexamine⟩) ⟨i, hconclude⟩

/-- However the calls mix, each nonce is accepted at most once, and not if it was consumed before;
the registry holds no others than those it had and those accepted. An answer is that of the call
made at once with the registry as it is there, and it is final. A step changes the registry only
when it is the one by which its call is accepted. -/
theorem accepts_once (f : DigestFunction) (calls : ι → Call) (registry : NonceRegistry)
    (s : Calls ι) (hruns : Runs f calls (start registry) s) :
    (∀ nonce i j, Accepts calls s i nonce → Accepts calls s j nonce → i = j) ∧
      (∀ nonce ∈ registry.consumed, ∀ i, ¬Accepts calls s i nonce) ∧
      (∀ nonce, nonce ∈ s.registry.consumed ↔
        nonce ∈ registry.consumed ∨ ∃ i, Accepts calls s i nonce) ∧
      (∀ i s', Step f calls i s s' →
        (∀ answer, s'.stage i = .answered answer →
          (calls i).verify f s.registry = (answer, s'.registry)) ∧
        (s'.registry ≠ s.registry → ∃ nonce, Accepts calls s' i nonce)) ∧
      ∀ i answer s', s.stage i = .answered answer → Runs f calls s s' →
        s'.stage i = .answered answer := by
  have hs := (consistent_start f calls registry).runs hruns
  refine ⟨hs.once, ?_, hs.consumed, ?_, ?_⟩
  · intro nonce hold i ha
    exact hs.fresh nonce i ha hold
  · intro i s' hstep
    refine ⟨fun answer ha => hs.verify_eq hstep ha, fun hchanged => ?_⟩
    obtain ⟨hsame, -⟩ | ⟨nonce, ha, -⟩ := hstep.registry_cases
    · exact absurd hsame hchanged
    · exact ⟨nonce, ha⟩
  · intro i answer s' ha hfurther
    exact hfurther.answered ha

end Consistent

/-- One presentation in two calls with one challenge, and in a third without its key binding. -/
def replays (i : Fin 3) : Call where
  verifier :=
    { Verifier.trusting with
      policy := some { audience := "v", nonce := "n", consumesNonce := true } }
  presentation :=
    if i = 2 then Presentation.front Verifier.boundPresentation else Verifier.boundPresentation

/-- The third call is refused, both replays pass their examinations, and the second of these
concludes before the first. -/
theorem accepts_once_replays :
    ∃ s, Runs HashAlgorithm.digest replays (start .empty) s ∧ Accepts replays s 1 "n" ∧
      s.stage 0 = .answered (.error .nonceMismatch) ∧
      s.stage 2 = .answered (.error .missingKeyBinding) ∧
      ∀ nonce i j, Accepts replays s i nonce → Accepts replays s j nonce → i = j := by
  have hsome : ∃ verified ∈ ((replays 0).examine HashAlgorithm.digest).toOption, True := by
    decide +kernel
  have hrefused : (replays 2).examine HashAlgorithm.digest = .error .missingKeyBinding := by
    have hkind : (match (replays 2).examine HashAlgorithm.digest with
        | .error .missingKeyBinding => true
        | _ => false) = true := by decide +kernel
    split at hkind
    · next h => exact h
    · cases hkind
  obtain ⟨verified, hmem, -⟩ := hsome
  have hpassed := toOption_eq_some_iff.1 hmem
  let s₁ : Calls (Fin 3) := (start .empty).advance 2 (.answered (.error .missingKeyBinding)) .empty
  let s₂ := s₁.advance 0 (.examined verified) s₁.registry
  let s₃ := s₂.advance 1 (.examined verified) s₂.registry
  let s₄ := s₃.advance 1 (.answered (.ok verified)) ⟨["n"]⟩
  let s₅ := s₄.advance 0 (.answered (.error .nonceMismatch)) ⟨["n"]⟩
  have hruns : Runs HashAlgorithm.digest replays (start .empty) s₅ := by
    have h₁ : Runs HashAlgorithm.digest replays (start .empty) s₁ :=
      .single ⟨2, .refuse rfl hrefused⟩
    have h₂ : Runs HashAlgorithm.digest replays (start .empty) s₂ :=
      h₁.tail ⟨0, .pass rfl hpassed⟩
    have h₃ : Runs HashAlgorithm.digest replays (start .empty) s₃ :=
      h₂.tail ⟨1, .pass rfl hpassed⟩
    have h₄ : Runs HashAlgorithm.digest replays (start .empty) s₄ :=
      h₃.tail ⟨1, .conclude rfl rfl⟩
    exact h₄.tail ⟨0, .conclude rfl rfl⟩
  refine ⟨s₅, hruns, ⟨⟨verified, rfl⟩, rfl⟩, rfl, rfl, ?_⟩
  exact (accepts_once HashAlgorithm.digest replays .empty s₅ hruns).1

end Calls

end SelectiveDisclosure
