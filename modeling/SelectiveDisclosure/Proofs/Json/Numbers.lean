import Mathlib.Data.List.TakeDrop
import Mathlib.Data.List.TakeWhile
import SelectiveDisclosure.Json.Number

/-!
# Numbers read back

A number is read the same in front of whatever may follow it in a text. Every integer is read back
from its own text; a binary number is when the text reads as that number again.
-/

set_option autoImplicit false

namespace SelectiveDisclosure.Json

/-- Nothing follows, or a comma, or a bracket that closes an array or an object. -/
def Closes (s : List Char) : Prop :=
  ∀ c, s.head? = some c → c = ',' ∨ c = ']' ∨ c = '\x7d'

theorem closes_nil : Closes [] := by
  intro c hc
  cases hc

theorem closes_cons {c : Char} (h : c = ',' ∨ c = ']' ∨ c = '\x7d') (s : List Char) :
    Closes (c :: s) := by
  intro d hd
  rwa [← Option.some.inj hd]

theorem Closes.not_isDigit {s : List Char} (h : Closes s) {c : Char} (hc : s.head? = some c) :
    c.isDigit = false := by
  rcases h c hc with rfl | rfl | rfl <;> decide

theorem Closes.ne_of_cons {c : Char} {s : List Char} (h : Closes (c :: s)) :
    c ≠ '.' ∧ c ≠ 'e' ∧ c ≠ 'E' := by
  rcases h c rfl with rfl | rfl | rfl <;> decide

namespace Number

/-! ## First characters -/

theorem whole?_of_ne {c : Char} (hc : c ≠ '0') (s : List Char) :
    whole? (c :: s) = digits? (c :: s) := by
  rw [whole?]
  intro s' heq
  exact hc (List.cons.inj heq).1

theorem fraction?_of_ne {c : Char} (hc : c ≠ '.') (s : List Char) :
    fraction? (c :: s) = some (none, c :: s) := by
  rw [fraction?]
  intro s' heq
  exact hc (List.cons.inj heq).1

theorem signed?_of_ne {c : Char} (hplus : c ≠ '+') (hminus : c ≠ '-') (s : List Char) :
    signed? (c :: s) =
      (digits? (c :: s)).map fun r => ((Nat.ofDigitChars 10 r.1 0 : Int), r.2) := by
  rw [signed?]
  · intro s' heq
    exact hplus (List.cons.inj heq).1
  · intro s' heq
    exact hminus (List.cons.inj heq).1

theorem exponent?_of_ne {c : Char} (hlow : c ≠ 'e') (hhigh : c ≠ 'E') (s : List Char) :
    exponent? (c :: s) = some (none, c :: s) := by
  rw [exponent?]
  · intro s' heq
    exact hlow (List.cons.inj heq).1
  · intro s' heq
    exact hhigh (List.cons.inj heq).1

/-! ## Digits -/

def EndsDigits (s : List Char) : Prop :=
  ∀ c, s.head? = some c → c.isDigit = false

theorem endsDigits_nil : EndsDigits [] := by
  intro c hc
  cases hc

theorem endsDigits_cons {c : Char} (h : c.isDigit = false) (s : List Char) :
    EndsDigits (c :: s) := by
  intro d hd
  rwa [← Option.some.inj hd]

section Digits
variable {ds s : List Char} (hds : ∀ c ∈ ds, c.isDigit = true) (hs : EndsDigits s)
include hds hs

theorem splitDigits_of_isDigit : splitDigits (ds ++ s) = (ds, s) := by
  have hstop : s.takeWhile Char.isDigit = [] ∧ s.dropWhile Char.isDigit = s := by
    cases s with
    | nil => exact ⟨rfl, rfl⟩
    | cons c r =>
      have hc : c.isDigit = false := hs c rfl
      rw [List.takeWhile_cons, List.dropWhile_cons, hc]
      exact ⟨rfl, rfl⟩
  rw [splitDigits, List.span_eq_takeWhile_dropWhile, List.takeWhile_append_of_pos hds,
    List.dropWhile_append_of_pos hds, hstop.1, hstop.2, List.append_nil]

theorem digits?_of_isDigit (hne : ds ≠ []) : digits? (ds ++ s) = some (ds, s) := by
  rw [digits?, splitDigits_of_isDigit hds hs]
  cases ds with
  | nil => exact absurd rfl hne
  | cons c r => rfl

theorem whole?_of_isDigit (hne : ds ≠ []) (hzero : ds.head? = some '0' → ds = ['0']) :
    whole? (ds ++ s) = some (ds, s) := by
  cases ds with
  | nil => exact absurd rfl hne
  | cons c r =>
    by_cases hc : c = '0'
    · subst hc
      obtain rfl : r = [] := (List.cons.inj (hzero rfl)).2
      have hnone : s.head?.map Char.isDigit ≠ some true := by
        intro h
        obtain ⟨c, hc, hdigit⟩ := Option.map_eq_some_iff.1 h
        rw [hs c hc] at hdigit
        cases hdigit
      exact if_neg hnone
    · rw [List.cons_append, whole?_of_ne hc]
      exact digits?_of_isDigit hds hs hne

end Digits

/-! ## In front of other text -/

section Append
variable {s t : List Char} (ht : Closes t)
include ht

theorem splitDigits_append (s : List Char) :
    splitDigits (s ++ t) = ((splitDigits s).1, (splitDigits s).2 ++ t) := by
  simp only [splitDigits, List.span_eq_takeWhile_dropWhile]
  induction s with
  | nil =>
    cases t with
    | nil => rfl
    | cons c r =>
      have hc : c.isDigit = false := ht.not_isDigit rfl
      simp [hc]
  | cons c r ih =>
    by_cases hc : c.isDigit = true
    · obtain ⟨h₁, h₂⟩ := Prod.mk.inj ih
      simp [hc, h₁, h₂]
    · simp [hc]

theorem digits?_append {ds r : List Char} (h : digits? s = some (ds, r)) :
    digits? (s ++ t) = some (ds, r ++ t) := by
  rw [digits?, splitDigits_append ht]
  rw [digits?] at h
  cases hs : splitDigits s with
  | mk as bs =>
    rw [hs] at h
    cases as with
    | nil => cases h
    | cons a as =>
      cases h
      rfl

theorem map_digits?_append {α : Type} {g : List Char × List Char → α × List Char}
    {k : List Char → α} (hg : ∀ ds r, g (ds, r) = (k ds, r)) {a : α} {r : List Char}
    (h : (digits? s).map g = some (a, r)) : (digits? (s ++ t)).map g = some (a, r ++ t) := by
  obtain ⟨⟨ds, r'⟩, hd, heq⟩ := Option.map_eq_some_iff.1 h
  rw [hg] at heq
  cases heq
  rw [digits?_append ht hd, Option.map_some, hg]

theorem head?_append_isDigit (h : (s ++ t).head?.map Char.isDigit = some true) :
    s.head?.map Char.isDigit = some true := by
  cases s with
  | cons c r => exact h
  | nil =>
    obtain ⟨c, hc, hdigit⟩ := Option.map_eq_some_iff.1 h
    rw [ht.not_isDigit hc] at hdigit
    cases hdigit

theorem whole?_append {ds r : List Char} (h : whole? s = some (ds, r)) :
    whole? (s ++ t) = some (ds, r ++ t) := by
  cases s with
  | nil => cases h
  | cons c s =>
    by_cases hc : c = '0'
    · subst hc
      rw [whole?] at h
      rw [List.cons_append, whole?]
      by_cases hd : s.head?.map Char.isDigit = some true
      · rw [if_pos hd] at h
        cases h
      · rw [if_neg hd] at h
        cases h
        rw [if_neg fun hd' => hd (head?_append_isDigit ht hd')]
    · rw [whole?_of_ne hc] at h
      rw [List.cons_append, whole?_of_ne hc]
      exact digits?_append ht h

theorem fraction?_append {f : Option (List Char)} {r : List Char}
    (h : fraction? s = some (f, r)) : fraction? (s ++ t) = some (f, r ++ t) := by
  cases s with
  | nil =>
    cases h
    cases t with
    | nil => rfl
    | cons c t => exact fraction?_of_ne ht.ne_of_cons.1 t
  | cons c s =>
    by_cases hc : c = '.'
    · subst hc
      exact map_digits?_append ht (fun _ _ => rfl) h
    · rw [fraction?_of_ne hc] at h
      cases h
      exact fraction?_of_ne hc (s ++ t)

theorem signed?_append {e : Int} {r : List Char} (h : signed? s = some (e, r)) :
    signed? (s ++ t) = some (e, r ++ t) := by
  cases s with
  | nil => cases h
  | cons c s =>
    by_cases hplus : c = '+'
    · subst hplus
      exact map_digits?_append ht (fun _ _ => rfl) h
    by_cases hminus : c = '-'
    · subst hminus
      exact map_digits?_append ht (fun _ _ => rfl) h
    rw [signed?_of_ne hplus hminus] at h
    rw [List.cons_append, signed?_of_ne hplus hminus]
    exact map_digits?_append (k := fun ds => (Nat.ofDigitChars 10 ds 0 : Int)) ht
      (fun _ _ => rfl) h

theorem exponent?_append {e : Option Int} {r : List Char} (h : exponent? s = some (e, r)) :
    exponent? (s ++ t) = some (e, r ++ t) := by
  cases s with
  | nil =>
    cases h
    cases t with
    | nil => rfl
    | cons c t => exact exponent?_of_ne ht.ne_of_cons.2.1 ht.ne_of_cons.2.2 t
  | cons c s =>
    by_cases hc : c = 'e' ∨ c = 'E'
    · have hexp (s : List Char) : exponent? (c :: s) =
          (signed? s).map fun r => (some r.1, r.2) := by
        rcases hc with rfl | rfl <;> rfl
      rw [hexp, Option.map_eq_some_iff] at h
      obtain ⟨⟨e', r'⟩, he, heq⟩ := h
      cases heq
      rw [List.cons_append, hexp, signed?_append ht he]
      rfl
    · rw [not_or] at hc
      rw [exponent?_of_ne hc.1 hc.2] at h
      cases h
      exact exponent?_of_ne hc.1 hc.2 (s ++ t)

end Append

def unsigned? (negative : Bool) (s : List Char) : Option (Literal × List Char) := do
  let (whole, s) ← whole? s
  let (fraction, s) ← fraction? s
  let (exponent, s) ← exponent? s
  return (⟨negative, whole, fraction, exponent⟩, s)

theorem literal?_minus (s : List Char) : literal? ('-' :: s) = unsigned? true s := rfl

theorem literal?_of_ne {c : Char} (hc : c ≠ '-') (s : List Char) :
    literal? (c :: s) = unsigned? false (c :: s) := by
  rw [literal?]
  · rfl
  · intro s' heq
    exact hc (List.cons.inj heq).1

section Append
variable {s t : List Char} (ht : Closes t)
include ht

theorem unsigned?_append {negative : Bool} {l : Literal} {r : List Char}
    (h : unsigned? negative s = some (l, r)) : unsigned? negative (s ++ t) = some (l, r ++ t) := by
  simp only [unsigned?, Option.bind_eq_bind, Option.bind_eq_some_iff] at h
  obtain ⟨⟨w, s₁⟩, hw, ⟨f, s₂⟩, hf, ⟨e, s₃⟩, he, heq⟩ := h
  cases heq
  simp only [unsigned?, whole?_append ht hw, Option.bind_eq_bind, Option.bind_some,
    fraction?_append ht hf, exponent?_append ht he]
  rfl

theorem literal?_append {l : Literal} {r : List Char} (h : literal? s = some (l, r)) :
    literal? (s ++ t) = some (l, r ++ t) := by
  cases s with
  | nil => cases h
  | cons c s =>
    by_cases hc : c = '-'
    · subst hc
      exact unsigned?_append ht h
    · rw [literal?_of_ne hc] at h
      rw [List.cons_append, literal?_of_ne hc]
      exact unsigned?_append ht h

theorem read?_append {n : Number} {r : List Char} (h : read? s = some (n, r)) :
    read? (s ++ t) = some (n, r ++ t) := by
  simp only [read?, Option.bind_eq_bind, Option.bind_eq_some_iff] at h
  obtain ⟨⟨l, r'⟩, hl, m, hm, heq⟩ := h
  cases heq
  simp only [read?, literal?_append ht hl, Option.bind_eq_bind, Option.bind_some, hm]
  rfl

end Append

/-! ## Integers -/

def ReadsBack (n : Number) : Prop :=
  read? n.chars = some (n, [])

theorem head?_toDigits_ne {n : Nat} (h : 0 < n) : (Nat.toDigits 10 n).head? ≠ some '0' := by
  induction n using Nat.strongRecOn with
  | ind n ih =>
    by_cases hn : n < 10
    · rw [Nat.toDigits_of_lt_base hn]
      have hall : ∀ n < 10, 0 < n → [Nat.digitChar n].head? ≠ some '0' := by decide
      exact hall n hn h
    · have hr := ih (n / 10) (by omega) (by omega)
      rw [Nat.toDigits_of_base_le (by decide) (by omega)]
      cases hd : Nat.toDigits 10 (n / 10) with
      | nil => exact absurd hd Nat.toDigits_ne_nil
      | cons c r =>
        rw [hd] at hr
        exact hr

theorem isDigit_of_mem_toDigits {n : Nat} {c : Char} (h : c ∈ Nat.toDigits 10 n) :
    c.isDigit = true :=
  Nat.isDigit_of_mem_toDigits (by decide) (by decide) h

theorem toDigits_of_head? {n : Nat} (h : (Nat.toDigits 10 n).head? = some '0') :
    Nat.toDigits 10 n = ['0'] := by
  by_cases hn : 0 < n
  · exact absurd h (head?_toDigits_ne hn)
  · rw [show n = 0 by omega, Nat.toDigits_zero]

theorem whole?_toDigits (n : Nat) :
    whole? (Nat.toDigits 10 n) = some (Nat.toDigits 10 n, []) := by
  have h := whole?_of_isDigit (fun _ hc => isDigit_of_mem_toDigits (n := n) hc) endsDigits_nil
    Nat.toDigits_ne_nil toDigits_of_head?
  rwa [List.append_nil] at h

theorem unsigned?_toDigits (negative : Bool) (n : Nat) :
    unsigned? negative (Nat.toDigits 10 n) =
      some (⟨negative, Nat.toDigits 10 n, none, none⟩, []) := by
  simp only [unsigned?, whole?_toDigits, Option.bind_eq_bind, Option.bind_some]
  rfl

theorem literal?_intChars (n : Int) :
    literal? (intChars n) =
      some (⟨decide (n < 0), Nat.toDigits 10 n.natAbs, none, none⟩, []) := by
  rw [intChars]
  by_cases hn : n < 0
  · rw [if_pos hn, List.singleton_append, literal?_minus, unsigned?_toDigits, decide_eq_true hn]
  · rw [if_neg hn, List.nil_append, decide_eq_false hn]
    have hu := unsigned?_toDigits false n.natAbs
    cases hd : Nat.toDigits 10 n.natAbs with
    | nil => exact absurd hd Nat.toDigits_ne_nil
    | cons c r =>
      have hc : c ≠ '-' := by
        rintro rfl
        have hdigit := Nat.isDigit_of_mem_toDigits (b := 10) (by decide) (by decide)
          (hd ▸ List.mem_cons_self)
        cases hdigit
      rw [hd] at hu
      rw [literal?_of_ne hc, hu]

theorem readsBack_integer (n : Int) (fits : -0x8000000000000000 ≤ n ∧ n < 0x10000000000000000) :
    (integer n fits).ReadsBack := by
  have hnumber : Literal.number? ⟨decide (n < 0), Nat.toDigits 10 n.natAbs, none, none⟩ =
      some (integer n fits) := by
    simp only [Literal.number?, Nat.ofDigitChars_ten_toDigits, Option.isNone_none, Bool.true_and]
    by_cases hn : n < 0
    · have habs : -(n.natAbs : Int) = n := by omega
      have hfits : (decide (0 < n.natAbs) && decide (n.natAbs ≤ 0x8000000000000000)) = true := by
        simp only [Bool.and_eq_true, decide_eq_true_eq]
        omega
      simp only [decide_eq_true hn, if_pos, hfits, habs, ofInt?, dif_pos fits]
    · have habs : (n.natAbs : Int) = n := by omega
      have hfits : decide (n.natAbs < 0x10000000000000000) = true := by
        rw [decide_eq_true_eq]
        omega
      simp only [decide_eq_false hn, hfits, habs, ofInt?, dif_pos fits, if_pos, Bool.false_eq_true,
        if_false]
  simp only [ReadsBack, read?, chars, literal?_intChars, Option.bind_eq_bind, Option.bind_some,
    hnumber]
  rfl

end Number

end SelectiveDisclosure.Json
