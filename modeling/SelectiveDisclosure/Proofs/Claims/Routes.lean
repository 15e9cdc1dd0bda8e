import SelectiveDisclosure.Proofs.Json.Numbers
import SelectiveDisclosure.Proofs.Claims.Refusals

/-!
# Routes of pointers

An index is written in one way only, its decimal text, and a name is the decoded form of one token
only. So each pointer takes a route of its own through a value, and no item of an array is reached,
or concealed, by two pointers.
-/

set_option autoImplicit false

namespace SelectiveDisclosure

open Json

/-! ## Indices as tokens -/

namespace Pointer

theorem escaped_of_isDigit {s : List Char} (h : ∀ c ∈ s, c.isDigit = true) : escaped s = s := by
  induction s with
  | nil => rfl
  | cons c r ih =>
    obtain ⟨hc, hr⟩ := List.forall_mem_cons.1 h
    have htilde : c ≠ '~' := by rintro rfl; cases hc
    have hslash : c ≠ '/' := by rintro rfl; cases hc
    rw [escaped, List.flatMap_cons, escapedChar, if_neg htilde, if_neg hslash]
    exact congrArg (c :: ·) (ih hr)

theorem text_pushIndex (p : Pointer) (n : Nat) :
    (p.pushIndex n).text = p.text ++ "/" ++ toString n := by
  have hdigits : escaped (Nat.toDigits 10 n) = Nat.toDigits 10 n :=
    escaped_of_isDigit fun _ => Number.isDigit_of_mem_toDigits
  apply String.ext
  simp [pushIndex, push, hdigits]

namespace Token

theorem lt_of_index? {t : Token} {n : Nat} (h : t.index? = some n) : n < 0x10000000000000000 := by
  unfold index? at h
  split at h
  · cases h
    decide
  · split at h
    · dsimp only at h
      split at h
      · next hlt => exact Option.some.inj h ▸ hlt
      · cases h
    · cases h
  · cases h

theorem exists_toDigits_eq_cons {n : Nat} (hn : 0 < n) :
    ∃ c r, Nat.toDigits 10 n = c :: r ∧ '1' ≤ c ∧ c ≤ '9' ∧ r.all Char.isDigit = true := by
  cases hd : Nat.toDigits 10 n with
  | nil => exact absurd hd Nat.toDigits_ne_nil
  | cons c r =>
    have hall : ∀ d ∈ c :: r, d.isDigit = true := fun d hm =>
      Number.isDigit_of_mem_toDigits (hd ▸ hm)
    obtain ⟨hc, hr⟩ := List.forall_mem_cons.1 hall
    have hrange : 48 ≤ c.toNat ∧ c.toNat ≤ 57 := Char.isDigit_iff_toNat.1 hc
    have hne : c.toNat ≠ 48 := by
      intro hzero
      obtain rfl : c = '0' := Char.toNat_inj.1 hzero
      exact Number.head?_toDigits_ne hn (by rw [hd]; rfl)
    have hlow : 49 ≤ c.toNat := by omega
    exact ⟨c, r, rfl, hlow, hrange.2, List.all_eq_true.2 hr⟩

theorem index?_of_raw_eq {t : Token} {n : Nat} (hn : n < 0x10000000000000000)
    (h : t.raw = indexText n) : t.index? = some n := by
  have hraw : t.raw.toList = Nat.toDigits 10 n := by rw [h, indexText, String.toList_ofList]
  by_cases hzero : n = 0
  · subst hzero
    rw [index?, hraw]
    rfl
  · obtain ⟨c, r, hd, hlow, hhigh, hr⟩ := exists_toDigits_eq_cons (Nat.pos_of_ne_zero hzero)
    rw [hd] at hraw
    unfold index?
    split
    · next hsingle =>
      obtain ⟨rfl, -⟩ := List.cons.inj (hraw.symm.trans hsingle)
      exact absurd hlow (by decide)
    · next c' r' _ hcons =>
      obtain ⟨rfl, rfl⟩ := List.cons.inj (hraw.symm.trans hcons)
      rw [if_pos ⟨hlow, hhigh, hr⟩, ← hd, Nat.ofDigitChars_ten_toDigits]
      exact if_pos hn
    · next hnil =>
      rw [hnil] at hraw
      cases hraw

theorem index?_eq_some_iff {t : Token} {n : Nat} :
    t.index? = some n ↔ n < 0x10000000000000000 ∧ t.raw = toString n := by
  rw [Nat.toString_eq_ofList_toDigits]
  exact ⟨fun h => ⟨lt_of_index? h, raw_eq_of_index? h⟩, fun h => index?_of_raw_eq h.1 h.2⟩

theorem index?_eq_none_iff {t : Token} :
    t.index? = none ↔ ∀ n < 0x10000000000000000, t.raw ≠ toString n := by
  rw [Option.eq_none_iff_forall_ne_some]
  constructor
  · intro h n hn hraw
    exact h n (index?_eq_some_iff.2 ⟨hn, hraw⟩)
  · intro h n hn
    obtain ⟨hlt, hraw⟩ := index?_eq_some_iff.1 hn
    exact h n hlt hraw

end Token
end Pointer

/-! ## Routes -/

namespace Json

inductive Branch where
  | member (name : String)
  | item (index : Nat)
  deriving DecidableEq

namespace Value

def branch? : Value → Pointer.Token → Option Branch
  | .object ms, t => (Members.get? ms t.toDecoded).map fun _ => .member t.toDecoded
  | .array items, t => t.index?.bind fun i => items[i]?.map fun _ => .item i
  | _, _ => none

def take? : Value → Branch → Option Value
  | .object ms, .member name => Members.get? ms name
  | .array items, .item i => items[i]?
  | _, _ => none

/-- The branches that tokens lead through, one below the other. -/
def route? : Value → List Pointer.Token → Option (List Branch)
  | _, [] => some []
  | v, t :: ts => do
    let b ← v.branch? t
    let r ← (← v.take? b).route? ts
    return b :: r

def along? : Value → List Branch → Option Value
  | v, [] => some v
  | v, b :: r => (v.take? b).bind fun u => u.along? r

theorem descend?_eq (v : Value) (t : Pointer.Token) :
    v.descend? t = (v.branch? t).bind v.take? := by
  cases v with
  | object ms =>
    rw [descend?, branch?]
    cases hg : Members.get? ms t.toDecoded with
    | none => rfl
    | some u => exact hg.symm
  | array items =>
    rw [descend?, branch?]
    cases t.index? with
    | none => rfl
    | some i =>
      rw [Option.bind_some, Option.bind_some]
      cases hi : items[i]? with
      | none => rfl
      | some u => exact hi.symm
  | _ => rfl

theorem route?_cons {v : Value} {t : Pointer.Token} {ts : List Pointer.Token}
    {r : List Branch} (h : v.route? (t :: ts) = some r) :
    ∃ b u r', v.branch? t = some b ∧ v.take? b = some u ∧ u.route? ts = some r' ∧ r = b :: r' := by
  simp only [route?, Option.bind_eq_bind, Option.bind_eq_some_iff] at h
  obtain ⟨b, hb, u, hu, r', hr', h⟩ := h
  exact ⟨b, u, r', hb, hu, hr', (Option.some.inj h).symm⟩

theorem follow?_eq_some_iff {v u : Value} {ts : List Pointer.Token} :
    v.follow? ts = some u ↔ ∃ r, v.route? ts = some r ∧ v.along? r = some u := by
  induction ts generalizing v with
  | nil => exact ⟨fun h => ⟨[], rfl, h⟩, by rintro ⟨_, ⟨⟩, h⟩; exact h⟩
  | cons t ts ih =>
    rw [follow?, descend?_eq]
    constructor
    · intro h
      obtain ⟨w, hw, h⟩ := Option.bind_eq_some_iff.1 h
      obtain ⟨b, hb, hw⟩ := Option.bind_eq_some_iff.1 hw
      obtain ⟨r, hr, hu⟩ := ih.1 h
      refine ⟨b :: r, ?_, ?_⟩
      · simp only [route?, hb, hw, hr, Option.bind_eq_bind, Option.bind_some]
        rfl
      · rw [along?, hw, Option.bind_some, hu]
    · rintro ⟨_, hroute, hu⟩
      obtain ⟨b, w, r, hb, hw, hr, rfl⟩ := route?_cons hroute
      rw [along?, hw, Option.bind_some] at hu
      rw [hb, Option.bind_some, hw, Option.bind_some]
      exact ih.2 ⟨r, hr, hu⟩

theorem eq_of_branch? {v : Value} {t u : Pointer.Token} {b : Branch} (ht : t.WellFormed)
    (hu : u.WellFormed) (htb : v.branch? t = some b) (hub : v.branch? u = some b) : t = u := by
  cases v with
  | object ms =>
    obtain ⟨_, -, htb⟩ := Option.map_eq_some_iff.1 htb
    obtain ⟨_, -, hub⟩ := Option.map_eq_some_iff.1 hub
    have hname := Branch.member.inj (htb.trans hub.symm)
    exact Decidable.not_not.1 fun hne => Pointer.Token.toDecoded_ne ht hu hne hname
  | array items =>
    obtain ⟨i, hi, htb⟩ := Option.bind_eq_some_iff.1 htb
    obtain ⟨j, hj, hub⟩ := Option.bind_eq_some_iff.1 hub
    obtain ⟨_, -, htb⟩ := Option.map_eq_some_iff.1 htb
    obtain ⟨_, -, hub⟩ := Option.map_eq_some_iff.1 hub
    obtain rfl := Branch.item.inj (htb.trans hub.symm)
    exact Pointer.Token.eq_of_index? hi hj
  | _ => cases htb

theorem eq_of_route? {v : Value} {ts us : List Pointer.Token} {r : List Branch}
    (hts : ∀ t ∈ ts, t.WellFormed) (hus : ∀ u ∈ us, u.WellFormed) (ht : v.route? ts = some r)
    (hu : v.route? us = some r) : ts = us := by
  induction ts generalizing v us r with
  | nil =>
    cases ht
    cases us with
    | nil => rfl
    | cons u us =>
      obtain ⟨_, _, _, -, -, -, h⟩ := route?_cons hu
      cases h
  | cons t ts ih =>
    obtain ⟨b, w, r, hb, hw, hr, rfl⟩ := route?_cons ht
    cases us with
    | nil => cases hu
    | cons u us =>
      obtain ⟨b', w', r', hb', hw', hr', heq⟩ := route?_cons hu
      obtain ⟨rfl, rfl⟩ := List.cons.inj heq
      obtain rfl := Option.some.inj (hw.symm.trans hw')
      obtain ⟨htw, htsw⟩ := List.forall_mem_cons.1 hts
      obtain ⟨huw, husw⟩ := List.forall_mem_cons.1 hus
      rw [eq_of_branch? htw huw hb hb', ih htsw husw hr hr']

end Value
end Json

theorem Concealer.follow?_of_concealAt {c : Concealer} {ts : List Pointer.Token} {v : Value}
    {draw : Nat} {step : Step} (h : c.concealAt ts v draw = some step) :
    v.follow? ts = some step.disclosure.concealed.value := by
  rw [concealAt_eq_some_iff] at h
  induction h with
  | member h =>
    obtain ⟨w, _, _, hw, -, rfl⟩ := concealMember_eq_some_iff.1 h
    rw [Value.follow?, Value.descend?, hw]
    rfl
  | item hi h =>
    obtain ⟨w, hw, rfl⟩ := concealItem_eq_some_iff.1 h
    rw [Value.follow?, Value.descend?, hi, Option.bind_some, hw]
    rfl
  | inMember hget h ih => rw [Value.follow?, Value.descend?, hget, Option.bind_some, ih]
  | inItem hi hget h ih =>
    rw [Value.follow?, Value.descend?, hi, Option.bind_some, hget, Option.bind_some, ih]

namespace Pointer

theorem eq_of_route? {p q : Pointer} {v : Value} {r : List Branch}
    (hp : v.route? p.tokens = some r) (hq : v.route? q.tokens = some r) : p = q := by
  have htokens := Value.eq_of_route? (fun _ => wellFormed_of_mem_tokens)
    (fun _ => wellFormed_of_mem_tokens) hp hq
  exact decoded_injective (congrArg (List.map Token.toDecoded) htokens)

/-- The tokens that are indices are the decimal texts of the numbers below `2^64`, which is how
these are pushed. So two pointers never take the same route to an item, or to any other value, and
what is concealed at a pointer is what stands at the end of its route. -/
theorem index?_eq_some_iff_and_route? :
    (∀ (t : Token) (n : Nat),
      t.index? = some n ↔ n < 0x10000000000000000 ∧ t.raw = toString n) ∧
    (∀ t : Token,
      t.index? = none ↔ ∀ n < 0x10000000000000000, t.raw ≠ toString n) ∧
    (∀ (p : Pointer) (n : Nat), (p.pushIndex n).text = p.text ++ "/" ++ toString n) ∧
    (∀ (v : Value) (p q : Pointer) (r : List Branch),
      v.route? p.tokens = some r → v.route? q.tokens = some r → p = q) ∧
    ∀ (c : Concealer) (v : Value) (p : Pointer) (draw : Nat) (step : Concealer.Step),
      c.concealAt p.tokens v draw = some step →
        ∃ r, v.route? p.tokens = some r ∧ v.along? r = some step.disclosure.concealed.value :=
  ⟨fun _ _ => Token.index?_eq_some_iff, fun _ => Token.index?_eq_none_iff, text_pushIndex,
    fun _ _ _ _ => eq_of_route?,
    fun _ _ _ _ _ h => Value.follow?_eq_some_iff.1 (Concealer.follow?_of_concealAt h)⟩

def listedItems : Value :=
  .object [("a", .array [.null, .bool true])]

/-- One pointer leads to the second item, and what it conceals is that item. -/
theorem route?_listedItems :
    listedItems.route? ((root.push "a").pushIndex 1).tokens = some [.member "a", .item 1] ∧
    (∀ q : Pointer, listedItems.route? q.tokens = some [.member "a", .item 1] →
      (root.push "a").pushIndex 1 = q) ∧
    ∃ step, (⟨fun _ => "", 0, fun _ => []⟩ : Concealer).concealAt
        ((root.push "a").pushIndex 1).tokens listedItems 0 = some step ∧
      ∃ r, listedItems.route? ((root.push "a").pushIndex 1).tokens = some r ∧
        listedItems.along? r = some step.disclosure.concealed.value := by
  obtain ⟨-, -, -, hinjective, hconcealed⟩ := index?_eq_some_iff_and_route?
  have hroute : listedItems.route? ((root.push "a").pushIndex 1).tokens =
      some [.member "a", .item 1] := by
    decide +kernel
  have hleads : listedItems.follow? ((root.push "a").pushIndex 1).tokens = some (.bool true) :=
    Value.follow?_eq_some_iff.2 ⟨_, hroute, rfl⟩
  have hne : ((root.push "a").pushIndex 1).tokens ≠ [] := by
    decide +kernel
  have hsome := Concealer.isSome_concealAt (c := ⟨fun _ => "", 0, fun _ => []⟩) hne listedItems 0
  rw [hleads, Option.isSome_some, Option.isSome_iff_exists] at hsome
  obtain ⟨step, hstep⟩ := hsome
  exact ⟨hroute, fun _ hq => hinjective _ _ _ _ hroute hq, step, hstep,
    hconcealed _ _ _ _ _ hstep⟩

/-- Of the last two the second is one too great. -/
example : (⟨"01"⟩ : Token).index? = none ∧ (⟨"+1"⟩ : Token).index? = none ∧
    (⟨"18446744073709551615"⟩ : Token).index? = some 0xffffffffffffffff ∧
    (⟨"18446744073709551616"⟩ : Token).index? = none := by
  decide +kernel

end Pointer
end SelectiveDisclosure
