import Mathlib.Data.List.Find
import SelectiveDisclosure.Proofs.Claims.Placement

/-!
# When concealing is refused

Places are concealed one after the other, each in what the ones before it have left. In descending
order no step adds or takes away a value at a later place, so the claims as they were given decide
whether a place has a value. What is left for the run itself to find is a repeated digest.
-/

set_option autoImplicit false

namespace SelectiveDisclosure

open Json

/-! ## Following tokens -/

namespace Pointer.Token

theorem toDecoded_ne {t u : Token} (ht : t.WellFormed) (hu : u.WellFormed) (hne : t ≠ u) :
    t.toDecoded ≠ u.toDecoded := fun heq =>
  hne (by rw [← ofDecoded_toDecoded ht, heq, ofDecoded_toDecoded hu])

theorem eq_of_index? {t u : Token} {i : Nat} (ht : t.index? = some i)
    (hu : u.index? = some i) : t = u := by
  obtain ⟨raw⟩ := t
  obtain ⟨raw'⟩ := u
  exact congrArg Token.mk ((raw_eq_of_index? ht).trans (raw_eq_of_index? hu).symm)

end Pointer.Token

namespace Json.Value

/-- The member that a token names, or the item that it is the index of. -/
def descend? : Value → Pointer.Token → Option Value
  | .object ms, t => Members.get? ms t.toDecoded
  | .array items, t => t.index?.bind fun i => items[i]?
  | _, _ => none

def follow? : Value → List Pointer.Token → Option Value
  | v, [] => some v
  | v, t :: ts => (v.descend? t).bind fun u => u.follow? ts

def put : Value → Pointer.Token → Value → Value
  | .object ms, t, w => .object (Members.insert t.toDecoded w ms)
  | .array items, t, w => .array ((t.index?.map fun i => items.set i w).getD items)
  | v, _, _ => v

theorem descend?_put_self {v u : Value} {t : Pointer.Token} (h : v.descend? t = some u)
    (w : Value) : (v.put t w).descend? t = some w := by
  cases v with
  | object ms => exact Members.get?_insert_self
  | array items =>
    obtain ⟨i, hi, h⟩ := Option.bind_eq_some_iff.1 h
    obtain ⟨hlt, -⟩ := List.getElem?_eq_some_iff.1 h
    rw [put, descend?, hi, Option.bind_some, Option.map_some, Option.getD_some,
      List.getElem?_set_self hlt]
  | _ => cases h

theorem descend?_put_of_ne {t u : Pointer.Token} (ht : t.WellFormed) (hu : u.WellFormed)
    (hne : t ≠ u) (v w : Value) : (v.put t w).descend? u = v.descend? u := by
  cases v with
  | object ms => exact Members.get?_insert_of_ne (Pointer.Token.toDecoded_ne ht hu hne)
  | array items =>
    rw [put, descend?, descend?]
    cases hi : t.index? with
    | none => rfl
    | some i =>
      cases hj : u.index? with
      | none => rfl
      | some j =>
        have hij : i ≠ j := fun heq => hne (Pointer.Token.eq_of_index? (heq ▸ hi) hj)
        rw [Option.bind_some, Option.bind_some, Option.map_some, Option.getD_some,
          List.getElem?_set_ne hij]
  | _ => rfl

end Json.Value

namespace Pointer

def Addresses (p : Pointer) (v : Value) : Prop :=
  (v.follow? p.tokens).isSome = true

instance (p : Pointer) (v : Value) : Decidable (p.Addresses v) :=
  inferInstanceAs (Decidable (_ = true))

example : (root.push "0").Addresses (.array [.null]) ∧
    ¬(root.push "00").Addresses (.array [.null]) := by decide

theorem isRoot_iff_tokens {p : Pointer} : p.isRoot = true ↔ p.tokens = [] := by
  rw [isRoot_iff, decoded, List.map_eq_nil_iff]

theorem eq_root_of_isRoot {p : Pointer} (h : p.isRoot = true) : p = root :=
  decoded_injective ((isRoot_iff.1 h).trans decoded_root.symm)

theorem not_lt_root {p : Pointer} : ¬p < root := fun h => List.not_lt_nil _ h

theorem ascending_congr {ps qs : List Pointer} (h : ∀ p, p ∈ ps ↔ p ∈ qs) :
    ascending ps = ascending qs := by
  have hnodup (l : List Pointer) : (ascending l).Nodup := by
    refine (pairwise_ascending l).imp ?_
    rintro p _ hlt rfl
    exact lt_irrefl p hlt
  have hperm : (ascending ps).Perm (ascending qs) :=
    (List.perm_ext_iff_of_nodup (hnodup ps) (hnodup qs)).2 fun p => by
      rw [mem_ascending, mem_ascending, h p]
  exact hperm.eq_of_pairwise (fun _ _ _ _ hpq hqp => absurd (lt_trans hpq hqp) (lt_irrefl _))
    (pairwise_ascending ps) (pairwise_ascending qs)

theorem not_prefix_of_lt {p q : Pointer} (h : q < p) : ¬p.tokens <+: q.tokens := by
  intro hbelow
  by_cases heq : p.tokens = q.tokens
  · rw [decoded_injective (congrArg (List.map Token.toDecoded) heq)] at h
    exact lt_irrefl q h
  · exact lt_irrefl q (lt_trans h (lt_of_isAncestorOf (isAncestorOf_iff_tokens.2 ⟨hbelow, heq⟩)))

end Pointer

/-! ## One step -/

namespace Concealer
variable {c : Concealer}

theorem get?_addDigest (c : Concealer) (g : String) (ms : Members) (draw : Nat) {name : String}
    (hne : name ≠ Digests.membersName) :
    Members.get? (c.addDigest g ms draw).1 name = Members.get? ms name := by
  rw [addDigest]
  split
  · exact Members.get?_insert_of_ne hne.symm
  · rfl
  · exact Members.get?_insert_of_ne hne.symm

theorem concealAt_cons (t t' : Pointer.Token) (rest : List Pointer.Token) (v : Value)
    (draw : Nat) :
    c.concealAt (t :: t' :: rest) v draw = (v.descend? t).bind fun w =>
      (c.concealAt (t' :: rest) w draw).map fun step =>
        { step with value := v.put t step.value } := by
  cases v with
  | object ms =>
    simp only [concealAt, Value.descend?, Value.put, Option.bind_eq_bind, Option.map_eq_bind]
    rfl
  | array items =>
    simp only [concealAt, Value.descend?, Value.put, Option.bind_eq_bind,
      Option.map_eq_bind (x := c.concealAt _ _ _)]
    cases t.index? <;> rfl
  | _ => rfl

theorem isSome_concealAt_singleton (t : Pointer.Token) (v : Value) (draw : Nat) :
    (c.concealAt [t] v draw).isSome = (v.descend? t).isSome := by
  cases v with
  | object ms =>
    rw [concealAt, concealMember, Value.descend?]
    cases Members.get? ms t.toDecoded <;> rfl
  | array items =>
    simp only [concealAt, concealItem, Value.descend?, Option.bind_eq_bind]
    cases t.index? with
    | none => rfl
    | some i =>
      rw [Option.bind_some, Option.bind_some]
      cases items[i]? <;> rfl
  | _ => rfl

theorem descend?_concealAt_singleton {t u : Pointer.Token} {v : Value} {draw : Nat} {step : Step}
    (h : c.concealAt [t] v draw = some step) (ht : t.WellFormed) (hu : u.WellFormed)
    (hne : t ≠ u) (hfree : isReserved u.toDecoded = false) :
    step.value.descend? u = v.descend? u := by
  cases v with
  | object ms =>
    obtain ⟨w, left, _, -, hleft, rfl⟩ := concealMember_eq_some_iff.1 h
    have hadd := get?_addDigest c
      (c.digest (Disclosure.ofParts (c.salt draw) (.member t.toDecoded w)).encoded)
      (Members.erase ms t.toDecoded) (draw + 1) (ne_of_not_isReserved hfree).1
    rw [hleft] at hadd
    exact hadd.trans (Members.get?_erase_of_ne (Pointer.Token.toDecoded_ne ht hu hne))
  | array items =>
    obtain ⟨i, hi, h⟩ := Option.bind_eq_some_iff.1 h
    obtain ⟨w, -, rfl⟩ := concealItem_eq_some_iff.1 h
    have hput := Value.descend?_put_of_ne ht hu hne (.array items)
      (Digests.placeholder (c.digest (Disclosure.ofParts (c.salt draw) (.item w)).encoded))
    rw [Value.put, hi] at hput
    exact hput
  | _ => cases h

theorem isSome_concealAt {ts : List Pointer.Token} (hts : ts ≠ []) (v : Value) (draw : Nat) :
    (c.concealAt ts v draw).isSome = (v.follow? ts).isSome := by
  induction ts generalizing v with
  | nil => exact absurd rfl hts
  | cons t rest ih =>
    rw [Value.follow?]
    cases rest with
    | nil =>
      rw [isSome_concealAt_singleton]
      cases v.descend? t <;> rfl
    | cons t' rest =>
      rw [concealAt_cons]
      cases v.descend? t with
      | none => rfl
      | some w =>
        rw [Option.bind_some, Option.bind_some, Option.isSome_map, ih (List.cons_ne_nil _ _)]

theorem isSome_follow?_concealAt {ts us : List Pointer.Token} {v : Value} {draw : Nat}
    {step : Step} (h : c.concealAt ts v draw = some step) (hts : ∀ t ∈ ts, t.WellFormed)
    (hus : ∀ u ∈ us, u.WellFormed ∧ isReserved u.toDecoded = false) (houtside : ¬ts <+: us) :
    (step.value.follow? us).isSome = (v.follow? us).isSome := by
  induction ts generalizing v us step with
  | nil => exact absurd List.nil_prefix houtside
  | cons t rest ih =>
    cases us with
    | nil => simp only [Value.follow?, Option.isSome_some]
    | cons u us =>
      obtain ⟨ht, hrest⟩ := List.forall_mem_cons.1 hts
      obtain ⟨⟨hu, hfree⟩, hrest'⟩ := List.forall_mem_cons.1 hus
      rw [Value.follow?, Value.follow?]
      cases rest with
      | nil =>
        have hne : t ≠ u := fun heq =>
          houtside (List.cons_prefix_cons.2 ⟨heq, List.nil_prefix⟩)
        rw [descend?_concealAt_singleton h ht hu hne hfree]
      | cons t' rest =>
        rw [concealAt_cons] at h
        obtain ⟨w, hw, h⟩ := Option.bind_eq_some_iff.1 h
        obtain ⟨step', hstep, rfl⟩ := Option.map_eq_some_iff.1 h
        by_cases heq : t = u
        · subst heq
          rw [Value.descend?_put_self hw, hw, Option.bind_some, Option.bind_some]
          exact ih hstep hrest hrest' fun hbelow =>
            houtside (List.cons_prefix_cons.2 ⟨rfl, hbelow⟩)
        · rw [Value.descend?_put_of_ne ht hu heq]

theorem exists_object_of_concealAt {ts : List Pointer.Token} {ms : Members} {draw : Nat}
    {step : Step} (h : c.concealAt ts (.object ms) draw = some step) :
    ∃ ms', step.value = .object ms' := by
  cases concealAt_eq_some_iff.1 h with
  | member h =>
    obtain ⟨v, left, _, -, -, rfl⟩ := concealMember_eq_some_iff.1 h
    exact ⟨left, rfl⟩
  | inMember hget h => exact ⟨_, rfl⟩

/-! ## A run -/

/-- A place that ends a run: the root, and one without a value in the claims. -/
def ends (claims : Members) (p : Pointer) : Bool :=
  p.isRoot || !((Value.object claims).follow? p.tokens).isSome

def refusal (p : Pointer) : ConcealError :=
  if p.isRoot then .cannotConcealRoot else .notFound p

theorem ends_concealAt {p q : Pointer} {claims claims' : Members} {draw : Nat} {step : Step}
    (h : c.concealAt p.tokens (.object claims) draw = some step)
    (hclaims : step.value = .object claims') (hlt : q < p)
    (hq : ∀ t ∈ q.tokens, isReserved t.toDecoded = false) : ends claims' q = ends claims q := by
  have hsame := isSome_follow?_concealAt h (fun _ => Pointer.wellFormed_of_mem_tokens)
    (fun u hu => ⟨Pointer.wellFormed_of_mem_tokens hu, hq u hu⟩) (Pointer.not_prefix_of_lt hlt)
  rw [hclaims] at hsame
  rw [ends, ends, hsame]

/-- In descending order the first place that ends a run is known before it. -/
theorem concealAll_cases {ps : List Pointer} (hdescending : ps.Pairwise fun p q => q < p)
    (hnames : ∀ p ∈ ps, ∀ t ∈ p.tokens, isReserved t.toDecoded = false) (claims : Members)
    (draw : Nat) :
    (∃ r, c.concealAll ps claims draw = .ok r ∧ ps.find? (ends claims) = none) ∨
      ∃ p, c.concealAll ps claims draw = .error (refusal p) ∧ ps.find? (ends claims) = some p := by
  induction ps generalizing claims draw with
  | nil => exact .inl ⟨_, rfl, rfl⟩
  | cons p r ih =>
    obtain ⟨hlt, hr⟩ := List.pairwise_cons.1 hdescending
    obtain ⟨hp, hrnames⟩ := List.forall_mem_cons.1 hnames
    rw [concealAll, List.find?_cons]
    by_cases hroot : p.isRoot = true
    · refine .inr ⟨p, ?_, ?_⟩
      · rw [if_pos hroot, refusal, if_pos hroot]
      · rw [ends, hroot, Bool.true_or]
    have hts : p.tokens ≠ [] := fun hnil => hroot (Pointer.isRoot_iff_tokens.2 hnil)
    have hsome := isSome_concealAt (c := c) hts (.object claims) draw
    rw [if_neg hroot]
    cases hstep : c.concealAt p.tokens (.object claims) draw with
    | none =>
      refine .inr ⟨p, ?_, ?_⟩
      · rw [refusal, if_neg hroot]
      · rw [ends, ← hsome, hstep, Option.isSome_none, Bool.not_false, Bool.or_true]
    | some step =>
      obtain ⟨claims', hclaims⟩ := exists_object_of_concealAt hstep
      have hends : ends claims p = false := by
        rw [ends, eq_false_of_ne_true hroot, ← hsome, hstep, Option.isSome_some, Bool.not_true,
          Bool.or_false]
      have hsame : r.find? (ends claims) = r.find? (ends claims') :=
        List.find?_congr fun q hq =>
          (ends_concealAt hstep hclaims (hlt q hq) (hrnames q hq)).symm
      obtain ⟨d, v, draw'⟩ := step
      obtain rfl : v = .object claims' := hclaims
      rw [hends, hsame]
      rcases ih hr hrnames claims' draw' with ⟨run, hrun, hnone⟩ | ⟨q, hrun, hq⟩
      · refine .inl ⟨(run.1, d :: run.2), ?_, hnone⟩
        simp only [hrun]
        rfl
      · refine .inr ⟨q, ?_, hq⟩
        simp only [hrun]
        rfl

end Concealer

/-! ## The outcome -/

namespace Payload
variable {f : DigestFunction} {how : Concealment} {claims : Members} {places : List Pointer}

/-- A reserved name is that of a member anywhere in the claims, or a token of a place. -/
def UsesReserved (claims : Members) (places : List Pointer) : Prop :=
  ¬(Value.object claims).Everywhere Value.LacksReserved ∨
    ∃ p ∈ places, ∃ token ∈ p.decoded, isReserved token = true

structure IsMissing (claims : Members) (places : List Pointer) (p : Pointer) : Prop where
  mem : p ∈ places
  ne_root : p ≠ Pointer.root
  nothing : ¬p.Addresses (.object claims)

/-- How concealing ends, as far as the claims and the places tell it beforehand. -/
structure Foretold (claims : Members) (places : List Pointer)
    (outcome : Except ConcealError (Payload × List Disclosure)) : Prop where
  reserved : (∃ name, outcome = .error (.reservedName name)) ↔ UsesReserved claims places
  missing : ¬UsesReserved claims places →
    ((∃ p, outcome = .error (.notFound p)) ↔ ∃ p, IsMissing claims places p)
  greatest : ¬UsesReserved claims places → ∀ p, outcome = .error (.notFound p) ↔
    IsMissing claims places p ∧ ∀ q, IsMissing claims places q → q = p ∨ q < p
  root : ¬UsesReserved claims places → (∀ p, ¬IsMissing claims places p) →
    (outcome = .error .cannotConcealRoot ↔ Pointer.root ∈ places)
  otherwise : ¬UsesReserved claims places → (∀ p, ¬IsMissing claims places p) →
    Pointer.root ∉ places →
      (∃ r, outcome = .ok r) ∨ ∃ digest, outcome = .error (.duplicateDigest digest)

theorem not_usesReserved_iff : ¬UsesReserved claims places ↔
    (Conceal.reservedInMembers? claims).or
      (((Pointer.ascending places).flatMap Pointer.decoded).find? isReserved) = none := by
  rw [UsesReserved, not_or, not_not, Value.everywhere_lacksReserved_iff, Option.or_eq_none_iff,
    List.find?_eq_none, Conceal.reservedIn?]
  refine and_congr_right' ?_
  simp only [List.mem_flatMap, Pointer.mem_ascending, not_exists, not_and, forall_exists_index,
    and_imp]
  exact ⟨fun h t p hp ht => h p hp t ht, fun h p hp t ht => h t p hp ht⟩

theorem conceal_of_usesReserved (h : UsesReserved claims places) :
    ∃ name, conceal f how claims places = .error (.reservedName name) := by
  obtain ⟨name, hname⟩ := Option.ne_none_iff_exists'.1 fun hnone => not_usesReserved_iff.2 hnone h
  exact ⟨name, by simp only [conceal, Conceal.checkNames, hname]; rfl⟩

theorem checkNames_of_not_usesReserved (h : ¬UsesReserved claims places) :
    Conceal.checkNames claims (Pointer.ascending places) = .ok () := by
  simp only [Conceal.checkNames, not_usesReserved_iff.1 h]

theorem exists_duplicateDigest {ds : List Disclosure} {e : ConcealError}
    (h : Conceal.checkDigests claims ds = .error e) : ∃ digest, e = .duplicateDigest digest := by
  unfold Conceal.checkDigests at h
  dsimp only at h
  split at h
  · exact ⟨_, (Except.error.inj h).symm⟩
  · cases h

def ending? (claims : Members) (places : List Pointer) : Option Pointer :=
  (Pointer.ascending places).reverse.find? (Concealer.ends claims)

theorem conceal_cases (hfree : ¬UsesReserved claims places) :
    (ending? claims places = none ∧ ((∃ r, conceal f how claims places = .ok r) ∨
      ∃ digest, conceal f how claims places = .error (.duplicateDigest digest))) ∨
    ∃ p, ending? claims places = some p ∧
      conceal f how claims places = .error (Concealer.refusal p) := by
  have hnames := checkNames_of_not_usesReserved hfree
  have htokens : ∀ p ∈ (Pointer.ascending places).reverse, ∀ t ∈ p.tokens,
      isReserved t.toDecoded = false := fun p hp t ht =>
    eq_false_of_ne_true fun hreserved => hfree (.inr ⟨p,
      Pointer.mem_ascending.1 (List.mem_reverse.1 hp), _, List.mem_map.2 ⟨t, ht, rfl⟩, hreserved⟩)
  rcases Concealer.concealAll_cases (c := ⟨f how.algorithm, how.decoys, how.random⟩)
    (pairwise_ascending_reverse places) htokens claims 0
    with ⟨⟨left, ds⟩, hrun, hnone⟩ | ⟨p, hrun, hp⟩
  · refine .inl ⟨hnone, ?_⟩
    cases hdigests : Conceal.checkDigests left ds with
    | ok _ => exact .inl ⟨_, by simp only [conceal, hnames, hrun, hdigests, bind, Except.bind]; rfl⟩
    | error e =>
      obtain ⟨digest, rfl⟩ := exists_duplicateDigest hdigests
      exact .inr ⟨digest, by simp only [conceal, hnames, hrun, hdigests, bind, Except.bind]⟩
  · exact .inr ⟨p, hp, by simp only [conceal, hnames, hrun, bind, Except.bind]⟩

theorem ends_iff {p : Pointer} (hmem : p ∈ places) :
    Concealer.ends claims p = true ↔ p = Pointer.root ∨ IsMissing claims places p := by
  have hroot : p.isRoot = true ↔ p = Pointer.root := ⟨Pointer.eq_root_of_isRoot, fun h => h ▸ rfl⟩
  rw [Concealer.ends, Bool.or_eq_true, hroot, Bool.not_eq_true', ← Bool.not_eq_true]
  constructor
  · rintro (h | h)
    · exact .inl h
    · by_cases heq : p = Pointer.root
      · exact .inl heq
      · exact .inr ⟨hmem, heq, h⟩
  · rintro (h | h)
    · exact .inl h
    · exact .inr h.nothing

theorem ending?_eq_some {p : Pointer} (h : ending? claims places = some p) :
    (p = Pointer.root ∧ Pointer.root ∈ places ∧ ∀ q, ¬IsMissing claims places q) ∨
      (p ≠ Pointer.root ∧ IsMissing claims places p ∧
        ∀ q, IsMissing claims places q → q = p ∨ q < p) := by
  obtain ⟨hends, before, after, hsplit, hbefore⟩ := List.find?_eq_some_iff_append.1 h
  have hmem {q : Pointer} : q ∈ places ↔ q ∈ before ∨ q = p ∨ q ∈ after := by
    rw [← Pointer.mem_ascending, ← List.mem_reverse, hsplit, List.mem_append, List.mem_cons]
  have hdescending := pairwise_ascending_reverse places
  rw [hsplit] at hdescending
  obtain ⟨-, hafter, -⟩ := List.pairwise_append.1 hdescending
  have hle : ∀ q, IsMissing claims places q → q = p ∨ q < p := by
    intro q hq
    rcases hmem.1 hq.mem with hq' | rfl | hq'
    · have hnot := hbefore q hq'
      rw [(ends_iff hq.mem).2 (.inr hq)] at hnot
      cases hnot
    · exact .inl rfl
    · exact .inr ((List.pairwise_cons.1 hafter).1 q hq')
  have hp : p ∈ places := hmem.2 (.inr (.inl rfl))
  by_cases hroot : p = Pointer.root
  · refine .inl ⟨hroot, hroot ▸ hp, fun q hq => ?_⟩
    rcases hle q hq with rfl | hlt
    · exact hq.ne_root hroot
    · exact Pointer.not_lt_root (hroot ▸ hlt)
  · exact .inr ⟨hroot, ((ends_iff hp).1 hends).resolve_left hroot, hle⟩

theorem ending?_eq_none (h : ending? claims places = none) :
    Pointer.root ∉ places ∧ ∀ q, ¬IsMissing claims places q := by
  have hnone {q : Pointer} (hq : q ∈ places) : ¬(q = Pointer.root ∨ IsMissing claims places q) := by
    rw [← ends_iff hq]
    exact List.find?_eq_none.1 h q (List.mem_reverse.2 (Pointer.mem_ascending.2 hq))
  exact ⟨fun hroot => hnone hroot (.inl rfl), fun q hq => hnone hq.mem (.inr hq)⟩

theorem foretold_of_usesReserved (h : UsesReserved claims places) :
    Foretold claims places (conceal f how claims places) where
  reserved := iff_of_true (conceal_of_usesReserved h) h
  missing hfree := absurd h hfree
  greatest hfree := absurd h hfree
  root hfree := absurd h hfree
  otherwise hfree := absurd h hfree

theorem foretold_of_ending?_eq_none (hfree : ¬UsesReserved claims places)
    (hnone : ending? claims places = none)
    {outcome : Except ConcealError (Payload × List Disclosure)}
    (h : (∃ r, outcome = .ok r) ∨ ∃ digest, outcome = .error (.duplicateDigest digest)) :
    Foretold claims places outcome := by
  obtain ⟨hroot, hmissing⟩ := ending?_eq_none hnone
  have hdigest {e : ConcealError} (he : outcome = .error e) :
      ∃ digest, e = .duplicateDigest digest := by
    rcases h with ⟨r, rfl⟩ | ⟨digest, rfl⟩
    · cases he
    · exact ⟨digest, (Except.error.inj he).symm⟩
  exact {
    reserved := iff_of_false (fun ⟨_, h⟩ => nomatch hdigest h) hfree
    missing := fun _ => iff_of_false (fun ⟨_, h⟩ => nomatch hdigest h)
      fun ⟨p, hp⟩ => hmissing p hp
    greatest := fun _ p => iff_of_false (fun h => nomatch hdigest h) fun hp => hmissing p hp.1
    root := fun _ _ => iff_of_false (fun h => nomatch hdigest h) hroot
    otherwise := fun _ _ _ => h }

theorem foretold_of_ending?_eq_some (hfree : ¬UsesReserved claims places) {p : Pointer}
    (hp : ending? claims places = some p) :
    Foretold claims places (.error (Concealer.refusal p)) := by
  rcases ending?_eq_some hp with ⟨rfl, hroot, hmissing⟩ | ⟨hne, hmissing, hgreatest⟩
  · have hrefusal : Concealer.refusal Pointer.root = .cannotConcealRoot := rfl
    rw [hrefusal]
    exact {
      reserved := iff_of_false nofun hfree
      missing := fun _ => iff_of_false nofun fun ⟨p, hp⟩ => hmissing p hp
      greatest := fun _ p => iff_of_false nofun fun hp => hmissing p hp.1
      root := fun _ _ => iff_of_true rfl hroot
      otherwise := fun _ _ hnot => absurd hroot hnot }
  · have hnotRoot : ¬p.isRoot = true := fun hroot =>
      hne (Pointer.eq_root_of_isRoot hroot)
    rw [Concealer.refusal, if_neg hnotRoot]
    exact {
      reserved := iff_of_false nofun hfree
      missing := fun _ => iff_of_true ⟨p, rfl⟩ ⟨p, hmissing⟩
      greatest := fun _ q => by
        constructor
        · rintro ⟨⟩
          exact ⟨hmissing, hgreatest⟩
        · rintro ⟨hq, hqgreatest⟩
          rcases hqgreatest p hmissing with rfl | hpq
          · rfl
          rcases hgreatest q hq with rfl | hqp
          · rfl
          · exact absurd (Pointer.lt_trans hpq hqp) (Pointer.lt_irrefl p)
      root := fun _ hnone => absurd hmissing (hnone p)
      otherwise := fun _ hnone => absurd hmissing (hnone p) }

/-- Up to repeated digests the claims and the set of places tell how concealing ends: a reserved
name comes first, then the greatest place at which there is nothing, then the root. -/
theorem foretold_conceal (f : DigestFunction) (how : Concealment) (claims : Members)
    (places : List Pointer) :
    Foretold claims places (conceal f how claims places) ∧
      ∀ places', (∀ p, p ∈ places' ↔ p ∈ places) →
        conceal f how claims places' = conceal f how claims places := by
  constructor
  · by_cases h : UsesReserved claims places
    · exact foretold_of_usesReserved h
    · rcases @conceal_cases f how claims places h with ⟨hnone, hend⟩ | ⟨p, hp, hend⟩
      · exact foretold_of_ending?_eq_none h hnone hend
      · exact hend ▸ foretold_of_ending?_eq_some h hp
  · intro places' hsame
    rw [conceal, Pointer.ascending_congr hsame, ← conceal]

def listedClaims : Members :=
  [("a", .array [.null]), ("b", .object [("c", .bool true)])]

/-- Nothing stands at the second place and at the last one. -/
def listedPlaces : List Pointer :=
  [.root, (Pointer.root.push "a").push "x", (Pointer.root.push "b").push "c", Pointer.root.push "a",
    (Pointer.root.push "a").pushIndex 1]

/-- The index comes before the name. -/
theorem foretold_conceal_listed :
    ¬UsesReserved listedClaims listedPlaces ∧
      IsMissing listedClaims listedPlaces ((Pointer.root.push "a").push "x") ∧
      (∀ q, IsMissing listedClaims listedPlaces q →
        q = (Pointer.root.push "a").push "x" ∨ q < (Pointer.root.push "a").push "x") ∧
      conceal HashAlgorithm.digest ⟨.sha256, 1, fun n => [UInt8.ofNat n]⟩ listedClaims
        (listedPlaces ++ listedPlaces.reverse) =
          .error (.notFound ((Pointer.root.push "a").push "x")) := by
  obtain ⟨hforetold, hsame⟩ := foretold_conceal HashAlgorithm.digest
    ⟨.sha256, 1, fun n => [UInt8.ofNat n]⟩ listedClaims listedPlaces
  have hfree : ¬UsesReserved listedClaims listedPlaces := not_usesReserved_iff.2 (by decide +kernel)
  have hrun : conceal HashAlgorithm.digest ⟨.sha256, 1, fun n => [UInt8.ofNat n]⟩ listedClaims
      listedPlaces = .error (.notFound ((Pointer.root.push "a").push "x")) := rfl
  obtain ⟨hmissing, hgreatest⟩ := (hforetold.greatest hfree _).1 hrun
  refine ⟨hfree, hmissing, hgreatest, (hsame _ fun p => ?_).trans hrun⟩
  rw [List.mem_append, List.mem_reverse, or_self]

end Payload

end SelectiveDisclosure
