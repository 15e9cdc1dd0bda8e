import SelectiveDisclosure.Proofs.Binary64.Shortest
import SelectiveDisclosure.Proofs.Json.Numbers
import SelectiveDisclosure.Proofs.Json.Scaling

/-!
# Decimals are read

The text of a number is a literal of its decimal, and every such literal is read. A binary number
need not be read back, for the significand of a literal is scaled in rounded steps.
-/

set_option autoImplicit false

namespace SelectiveDisclosure.Json.Number

open Binary64

/-! ## Literals -/

namespace Literal

def value (l : Literal) : ℚ :=
  Nat.ofDigitChars 10 (l.whole ++ l.fraction.getD []) 0 *
    10 ^ (l.exponent.getD 0 - (l.fraction.getD []).length : ℤ)

/-- The literal stands for the decimal, its digits before the point fit, and it is not the text of
an integer. -/
structure Denotes (l : Literal) (d : Decimal) : Prop where
  fits : Nat.ofDigitChars 10 l.whole 0 < 0x10000000000000000
  binary : (l.fraction.isNone && l.exponent.isNone) = false
  value : l.value = d.value

theorem denotes_of_digits {l : Literal} {d : Decimal}
    (hwhole : ∀ c ∈ l.whole, c.isDigit = true) (hlength : l.whole.length ≤ 16)
    (hbinary : (l.fraction.isNone && l.exponent.isNone) = false) {k : ℕ}
    (hdigits : Nat.ofDigitChars 10 (l.whole ++ l.fraction.getD []) 0 = d.digits * 10 ^ k)
    (hexponent : l.exponent.getD 0 - (l.fraction.getD []).length + k = d.exponent) :
    l.Denotes d := by
  refine ⟨?_, hbinary, ?_⟩
  · have hlt := ofDigitChars_lt hwhole 0
    have hpow : 10 ^ l.whole.length ≤ 10 ^ 16 := Nat.pow_le_pow_right (by decide) hlength
    omega
  · rw [value, hdigits, Decimal.value, ← hexponent, zpow_add₀ (by norm_num), zpow_natCast]
    push_cast
    ring

/-- A literal of a decimal is read when its value leaves room for the rounding. -/
theorem Denotes.exists_number? {l : Literal} {d : Decimal} (h : l.Denotes d)
    (hvalue : d.value ≤ scalable) : ∃ x, l.number? = some (.binary x) := by
  have hspec := significand_spec h.fits (l.fraction.getD [])
  rw [← Nat.ofDigitChars_append] at hspec
  rw [number?]
  simp only [h.binary, Bool.false_and, Bool.false_eq_true, if_false]
  rw [binary?, significand_eq h.fits]
  simp only
  generalize significand (Nat.ofDigitChars 10 l.whole 0) (l.fraction.getD []) = taken at hspec
  obtain ⟨m, dropped⟩ := taken
  obtain ⟨hm, hle⟩ := hspec
  have hplace : (m : ℚ) * 10 ^ (((0 : ℕ) : ℤ) - ((l.fraction.getD []).length - dropped : ℕ) +
      l.exponent.getD 0) ≤ scalable := by
    refine le_trans ?_ hvalue
    rw [← h.value, Literal.value]
    exact mul_zpow_le hle (by omega)
  obtain ⟨x, hx⟩ := exists_scaled? hm hplace
  rw [hx]
  exact ⟨_, rfl⟩

end Literal

/-! ## The forms of a decimal -/

theorem unsigned?_of_parts (negative : Bool) {w s t u : List Char} {f : Option (List Char)}
    {e : Option ℤ} (hw : whole? (w ++ s) = some (w, s)) (hf : fraction? s = some (f, t))
    (he : exponent? t = some (e, u)) :
    unsigned? negative (w ++ s) = some (⟨negative, w, f, e⟩, u) := by
  simp only [unsigned?, hw, hf, he, Option.bind_eq_bind, Option.bind_some]
  rfl

theorem fraction?_of_isDigit {ds s : List Char} (hds : ∀ c ∈ ds, c.isDigit = true)
    (hs : EndsDigits s) (hne : ds ≠ []) : fraction? ('.' :: (ds ++ s)) = some (some ds, s) := by
  rw [fraction?, digits?_of_isDigit hds hs hne]
  rfl

theorem exponent?_order (order : ℤ) :
    exponent? ('e' :: (if order < 0 then '-' else '+') :: Nat.toDigits 10 order.natAbs) =
      some (some order, []) := by
  have hdigits := digits?_of_isDigit (fun _ hc => isDigit_of_mem_toDigits (n := order.natAbs) hc)
    endsDigits_nil Nat.toDigits_ne_nil
  rw [List.append_nil] at hdigits
  by_cases h : order < 0
  · have habs : -(order.natAbs : ℤ) = order := by omega
    simp only [if_pos h, exponent?, signed?, hdigits, Option.map_some,
      Nat.ofDigitChars_ten_toDigits, habs]
  · have habs : (order.natAbs : ℤ) = order := by omega
    simp only [if_neg h, exponent?, signed?, hdigits, Option.map_some,
      Nat.ofDigitChars_ten_toDigits, habs]

section Forms
variable {d : Decimal} (hd : 0 < d.digits) (negative : Bool)

include hd in
theorem whole?_of_head? {w s : List Char} (hw : ∀ c ∈ w, c.isDigit = true) (hs : EndsDigits s)
    (hhead : w.head? = (Nat.toDigits 10 d.digits).head?) : whole? (w ++ s) = some (w, s) := by
  refine whole?_of_isDigit hw hs ?_ ?_
  · rintro rfl
    exact Nat.toDigits_ne_nil (List.head?_eq_none_iff.1 hhead.symm)
  · intro hzero
    exact absurd (hhead.symm.trans hzero) (head?_toDigits_ne hd)

theorem isDigit_of_mem_replicate {k : ℕ} {c : Char} (h : c ∈ List.replicate k '0') :
    c.isDigit = true := by
  rw [List.eq_of_mem_replicate h]
  rfl

include hd in
theorem exists_integral (hexponent : 0 ≤ d.exponent)
    (horder : d.exponent + (Nat.toDigits 10 d.digits).length - 1 < 16) :
    ∃ l, unsigned? negative (Nat.toDigits 10 d.digits ++
      List.replicate d.exponent.toNat '0' ++ ['.', '0']) = some (l, []) ∧ l.Denotes d := by
  have hdigits : ∀ c ∈ Nat.toDigits 10 d.digits ++ List.replicate d.exponent.toNat '0',
      c.isDigit = true :=
    List.forall_mem_append.2 ⟨fun _ => isDigit_of_mem_toDigits, fun _ => isDigit_of_mem_replicate⟩
  have hwhole := whole?_of_head? hd (s := ['.', '0']) hdigits (endsDigits_cons rfl _)
    (List.head?_append_of_ne_nil _ Nat.toDigits_ne_nil)
  have hfraction : fraction? ['.', '0'] = some (some ['0'], []) := rfl
  refine ⟨_, unsigned?_of_parts negative hwhole hfraction rfl,
    Literal.denotes_of_digits hdigits ?_ rfl (k := d.exponent.toNat + 1) ?_ ?_⟩
  · simp only [List.length_append, List.length_replicate]
    omega
  · simp only [Option.getD_some, Nat.ofDigitChars_append, Nat.ofDigitChars_ten_toDigits,
      Nat.ofDigitChars_replicate_zero]
    rw [Nat.ofDigitChars_cons, Nat.ofDigitChars_nil, Nat.pow_succ]
    simp only [Nat.sub_self, Nat.add_zero]
    ring
  · simp only [Option.getD_some, Option.getD_none, List.length_singleton]
    omega

include hd in
theorem exists_pointed (hexponent : d.exponent < 0)
    (horder : 0 ≤ d.exponent + (Nat.toDigits 10 d.digits).length - 1)
    (hbound : d.exponent + (Nat.toDigits 10 d.digits).length - 1 < 16) :
    ∃ l, unsigned? negative ((Nat.toDigits 10 d.digits).take
      (d.exponent + (Nat.toDigits 10 d.digits).length - 1 + 1).toNat ++
        '.' :: (Nat.toDigits 10 d.digits).drop
          (d.exponent + (Nat.toDigits 10 d.digits).length - 1 + 1).toNat) = some (l, []) ∧
      l.Denotes d := by
  generalize hk : (d.exponent + (Nat.toDigits 10 d.digits).length - 1 + 1).toNat = k
  have htake : ∀ c ∈ (Nat.toDigits 10 d.digits).take k, c.isDigit = true :=
    fun _ hc => isDigit_of_mem_toDigits (List.mem_of_mem_take hc)
  have hdrop : ∀ c ∈ (Nat.toDigits 10 d.digits).drop k, c.isDigit = true :=
    fun _ hc => isDigit_of_mem_toDigits (List.mem_of_mem_drop hc)
  have hhead : ((Nat.toDigits 10 d.digits).take k).head? = (Nat.toDigits 10 d.digits).head? := by
    rw [List.head?_take, if_neg (by omega)]
  have hne : (Nat.toDigits 10 d.digits).drop k ≠ [] := by
    rw [Ne, List.drop_eq_nil_iff]
    omega
  have hwhole := whole?_of_head? hd (s := '.' :: (Nat.toDigits 10 d.digits).drop k) htake
    (endsDigits_cons rfl _) hhead
  have hfraction := fraction?_of_isDigit hdrop endsDigits_nil hne
  rw [List.append_nil] at hfraction
  refine ⟨_, unsigned?_of_parts negative hwhole hfraction rfl,
    Literal.denotes_of_digits htake ?_ rfl (k := 0) ?_ ?_⟩
  · simp only [List.length_take]
    omega
  · rw [Option.getD_some, List.take_append_drop, Nat.ofDigitChars_ten_toDigits, Nat.pow_zero,
      Nat.mul_one]
  · simp only [Option.getD_some, Option.getD_none, List.length_drop]
    omega

theorem exists_fractional
    (horder : d.exponent + (Nat.toDigits 10 d.digits).length - 1 < 0) :
    ∃ l, unsigned? negative ('0' :: '.' :: List.replicate
      (-(d.exponent + (Nat.toDigits 10 d.digits).length - 1) - 1).toNat '0' ++
        Nat.toDigits 10 d.digits) = some (l, []) ∧ l.Denotes d := by
  generalize hk : (-(d.exponent + (Nat.toDigits 10 d.digits).length - 1) - 1).toNat = k
  have hzero : ∀ c ∈ ['0'], c.isDigit = true := List.forall_mem_singleton.2 rfl
  have hdigits : ∀ c ∈ List.replicate k '0' ++ Nat.toDigits 10 d.digits, c.isDigit = true :=
    List.forall_mem_append.2 ⟨fun _ => isDigit_of_mem_replicate, fun _ => isDigit_of_mem_toDigits⟩
  have hne : List.replicate k '0' ++ Nat.toDigits 10 d.digits ≠ [] :=
    fun h => Nat.toDigits_ne_nil (List.append_eq_nil_iff.1 h).2
  have hwhole := whole?_of_isDigit (s := '.' :: (List.replicate k '0' ++ Nat.toDigits 10 d.digits))
    hzero (endsDigits_cons rfl _) (List.cons_ne_nil _ _) fun _ => rfl
  have hfraction := fraction?_of_isDigit hdigits endsDigits_nil hne
  have hsplit : '0' :: '.' :: List.replicate k '0' ++ Nat.toDigits 10 d.digits =
      ['0'] ++ '.' :: (List.replicate k '0' ++ Nat.toDigits 10 d.digits) := rfl
  rw [List.append_nil] at hfraction
  rw [hsplit]
  refine ⟨_, unsigned?_of_parts negative hwhole hfraction rfl,
    Literal.denotes_of_digits hzero (Nat.le_add_left 1 15) rfl (k := 0) ?_ ?_⟩
  · rw [Option.getD_some, List.singleton_append, Nat.ofDigitChars_cons, Nat.ofDigitChars_append,
      Nat.ofDigitChars_replicate_zero, Nat.sub_self, Nat.mul_zero,
      Nat.ofDigitChars_ten_toDigits, Nat.pow_zero, Nat.mul_one]
  · simp only [Option.getD_some, Option.getD_none, List.length_append, List.length_replicate]
    omega

include hd in
theorem exists_scientific {fraction : List Char}
    (hnone : (Nat.toDigits 10 d.digits).drop 1 = [] → fraction = [])
    (hsome : (Nat.toDigits 10 d.digits).drop 1 ≠ [] →
      fraction = '.' :: (Nat.toDigits 10 d.digits).drop 1) :
    ∃ l, unsigned? negative ((Nat.toDigits 10 d.digits).take 1 ++ fraction ++
      'e' :: (if d.exponent + (Nat.toDigits 10 d.digits).length - 1 < 0 then '-' else '+') ::
        Nat.toDigits 10 (d.exponent + (Nat.toDigits 10 d.digits).length - 1).natAbs) =
          some (l, []) ∧ l.Denotes d := by
  have hpos := List.length_pos_iff.2 (Nat.toDigits_ne_nil (n := d.digits) (b := 10))
  have htake : ∀ c ∈ (Nat.toDigits 10 d.digits).take 1, c.isDigit = true :=
    fun _ hc => isDigit_of_mem_toDigits (List.mem_of_mem_take hc)
  have hdrop : ∀ c ∈ (Nat.toDigits 10 d.digits).drop 1, c.isDigit = true :=
    fun _ hc => isDigit_of_mem_toDigits (List.mem_of_mem_drop hc)
  have hhead : ((Nat.toDigits 10 d.digits).take 1).head? = (Nat.toDigits 10 d.digits).head? := by
    rw [List.head?_take, if_neg (by decide)]
  have hlength : ((Nat.toDigits 10 d.digits).take 1).length ≤ 16 := by
    rw [List.length_take]
    omega
  have hdigits : Nat.ofDigitChars 10 ((Nat.toDigits 10 d.digits).take 1 ++
      (Nat.toDigits 10 d.digits).drop 1) 0 = d.digits * 10 ^ 0 := by
    rw [List.take_append_drop, Nat.ofDigitChars_ten_toDigits, Nat.pow_zero, Nat.mul_one]
  generalize horder : d.exponent + (Nat.toDigits 10 d.digits).length - 1 = order
  have hexponent := exponent?_order order
  have hends : EndsDigits ('e' :: (if order < 0 then '-' else '+') ::
      Nat.toDigits 10 order.natAbs) := endsDigits_cons rfl _
  have hplain := fraction?_of_ne (c := 'e') (by decide)
    ((if order < 0 then '-' else '+') :: Nat.toDigits 10 order.natAbs)
  generalize 'e' :: (if order < 0 then '-' else '+') :: Nat.toDigits 10 order.natAbs = tail
    at hexponent hends hplain
  rw [List.append_assoc]
  by_cases hrest : (Nat.toDigits 10 d.digits).drop 1 = []
  · rw [hnone hrest, List.nil_append]
    refine ⟨_, unsigned?_of_parts negative (whole?_of_head? hd htake hends hhead) hplain hexponent,
      Literal.denotes_of_digits htake hlength rfl (hrest ▸ hdigits) ?_⟩
    rw [List.drop_eq_nil_iff] at hrest
    simp only [Option.getD_some, Option.getD_none, List.length_nil]
    omega
  · have hwhole := whole?_of_head? hd (s := '.' :: (Nat.toDigits 10 d.digits).drop 1 ++ tail) htake
      (endsDigits_cons rfl _) hhead
    rw [hsome hrest]
    refine ⟨_, unsigned?_of_parts negative hwhole (fraction?_of_isDigit hdrop hends hrest)
      hexponent, Literal.denotes_of_digits htake hlength rfl hdigits ?_⟩
    simp only [Option.getD_some, List.length_drop]
    omega

theorem exists_literal (hd : 0 < d.digits) (negative : Bool) :
    ∃ l, unsigned? negative (decimalChars d) = some (l, []) ∧ l.Denotes d := by
  rw [decimalChars]
  simp only
  by_cases hplain : -5 ≤ d.exponent + (Nat.toDigits 10 d.digits).length - 1 ∧
      d.exponent + (Nat.toDigits 10 d.digits).length - 1 < 16
  · rw [if_pos hplain]
    by_cases hexponent : 0 ≤ d.exponent
    · rw [if_pos hexponent]
      exact exists_integral hd negative hexponent hplain.2
    rw [if_neg hexponent]
    by_cases horder : 0 ≤ d.exponent + (Nat.toDigits 10 d.digits).length - 1
    · rw [if_pos horder]
      exact exists_pointed hd negative (by omega) horder hplain.2
    · rw [if_neg horder]
      exact exists_fractional negative (by omega)
  · rw [if_neg hplain]
    refine exists_scientific hd negative (fun hr => ?_) fun hr => ?_
    · rw [hr]
    · cases hdrop : (Nat.toDigits 10 d.digits).drop 1 with
      | nil => exact absurd hdrop hr
      | cons c r => rfl

end Forms

/-! ## Texts of numbers -/

theorem literal?_of_unsigned? {negative : Bool} {s : List Char} {r : Literal × List Char}
    (h : unsigned? negative s = some r) :
    literal? ((if negative then ['-'] else []) ++ s) = some r := by
  cases negative with
  | true => exact h
  | false =>
    cases s with
    | nil => cases h
    | cons c s =>
      have hc : c ≠ '-' := by
        rintro rfl
        cases h
      rw [if_neg Bool.false_ne_true, List.nil_append, literal?_of_ne hc, h]

theorem exists_read?_of_denotes {negative : Bool} {s : List Char} {l : Literal} {d : Decimal}
    (hl : unsigned? negative s = some (l, [])) (hd : l.Denotes d) (hvalue : d.value ≤ scalable) :
    ∃ m, read? ((if negative then ['-'] else []) ++ s) = some (m, []) := by
  obtain ⟨x, hx⟩ := hd.exists_number? hvalue
  refine ⟨.binary x, ?_⟩
  simp only [read?, literal?_of_unsigned? hl, hx, Option.bind_eq_bind, Option.bind_some]
  rfl

theorem exists_read?_zero (negative : Bool) :
    ∃ m, read? ((if negative then ['-'] else []) ++ ['0', '.', '0']) = some (m, []) := by
  have hl : unsigned? negative ['0', '.', '0'] =
      some (⟨negative, ['0'], some ['0'], none⟩, []) := rfl
  have hdigits : ∀ c ∈ ['0'], c.isDigit = true := List.forall_mem_singleton.2 rfl
  have hd : (⟨negative, ['0'], some ['0'], none⟩ : Literal).Denotes ⟨0, -1⟩ :=
    Literal.denotes_of_digits hdigits (Nat.le_add_left 1 15) rfl (k := 0) rfl rfl
  refine exists_read?_of_denotes hl hd ?_
  rw [Decimal.value, Nat.cast_zero, zero_mul, scalable]
  positivity

/-- Among the last numbers the room for the rounding is too small, but each of them is read. -/
theorem exists_read?_greatest {x : Binary64} (hexponent : x.exponent = 971)
    (hsignificand : 9007199254740988 ≤ x.significand) :
    ∃ m, read? (binaryChars x) = some (m, []) := by
  have hall : ∀ negative, ∀ k < 4,
      ((normal? negative (9007199254740988 + k) 971).bind fun x => read? (binaryChars x)).map
        Prod.snd = some [] := by decide +kernel
  have hbound : x.significand < 9007199254740992 := x.normal.1
  have hsame : 9007199254740988 + (x.significand - 9007199254740988) = x.significand := by omega
  have hnormal : normal? x.negative x.significand 971 = some x := by
    rw [← hexponent, normal?_of_normal x.negative x.normal]
  have hread := hall x.negative (x.significand - 9007199254740988) (by omega)
  rw [hsame, hnormal, Option.bind_some, Option.map_eq_some_iff] at hread
  obtain ⟨⟨m, r⟩, hread, rfl⟩ := hread
  exact ⟨m, hread⟩

theorem value_le_scalable {x : Binary64} {d : Decimal} (h : x.Within d)
    (hx : x.exponent = 971 → x.significand < 9007199254740988) : d.value ≤ scalable := by
  have hlong : (x.significand : ℚ) + 1 ≤ 2 ^ 53 := by
    exact_mod_cast x.normal.1
  apply le_trans h.le
  by_cases hexponent : x.exponent = 971
  · have hshort : (x.significand : ℚ) + 1 ≤ 9007199254740988 := by
      exact_mod_cast hx hexponent
    rw [hexponent, scalable, show (971 : ℤ) = ((971 : ℕ) : ℤ) from rfl, zpow_natCast]
    exact mul_le_mul_of_nonneg_right (by linarith) (by positivity)
  · have hle : x.exponent ≤ 970 := by
      have := x.normal.2.2.1
      omega
    have hpow : (2 : ℚ) ^ x.exponent ≤ 2 ^ ((970 : ℕ) : ℤ) :=
      zpow_le_zpow_right₀ (by norm_num) hle
    rw [zpow_natCast] at hpow
    calc (x.significand + 1 / 2 : ℚ) * 2 ^ x.exponent ≤ 2 ^ 53 * 2 ^ 970 :=
          mul_le_mul (by linarith) hpow (by positivity) (by positivity)
      _ = 2 ^ 52 * 2 ^ 971 := by
          rw [pow_succ 2 52, pow_succ 2 970]
          generalize (2 : ℚ) ^ 970 = unit
          ring
      _ ≤ scalable := mul_le_mul_of_nonneg_right (by norm_num) (by positivity)

theorem exists_read?_binaryChars (x : Binary64) : ∃ m, read? (binaryChars x) = some (m, []) := by
  by_cases hgreatest : x.exponent = 971 ∧ 9007199254740988 ≤ x.significand
  · exact exists_read?_greatest hgreatest.1 hgreatest.2
  rw [binaryChars]
  by_cases hzero : x.isZero = true
  · rw [if_pos hzero]
    exact exists_read?_zero x.negative
  rw [if_neg hzero]
  have hpos : 0 < x.significand :=
    Nat.pos_of_ne_zero fun h => hzero (beq_iff_eq.2 h)
  rcases within_shortest hpos with hnone | hwithin
  · have hchars : decimalChars ⟨0, 0⟩ = ['0', '.', '0'] := by decide
    rw [hnone, hchars]
    exact exists_read?_zero x.negative
  · obtain ⟨l, hl, hd⟩ := exists_literal hwithin.pos x.negative
    exact exists_read?_of_denotes hl hd
      (value_le_scalable hwithin fun h => Nat.lt_of_not_le fun hle => hgreatest ⟨h, hle⟩)

theorem exists_read?_chars (n : Number) : ∃ m, read? n.chars = some (m, []) := by
  cases n with
  | integer n fits => exact ⟨_, readsBack_integer n fits⟩
  | binary x => exact exists_read?_binaryChars x

end SelectiveDisclosure.Json.Number
