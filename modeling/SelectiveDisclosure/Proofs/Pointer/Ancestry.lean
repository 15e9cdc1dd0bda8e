import SelectiveDisclosure.Proofs.Pointer.Tokens

/-!
# Ancestors and order of pointers

One pointer is an ancestor of another when its decoded tokens are a strict prefix of the others.
An ancestor comes first in the order of the texts, so a descending list of pointers visits each
place before the places around it.
-/

set_option autoImplicit false

namespace SelectiveDisclosure.Pointer

/-! ## Ancestors -/

theorem slashed_prefix_iff {ts us : List Token} (ht : ∀ t ∈ ts, t.WellFormed)
    (hu : ∀ t ∈ us, t.WellFormed) :
    slashed ts ++ ['/'] <+: slashed us ↔ ts <+: us ∧ ts ≠ us := by
  induction ts generalizing us with
  | nil =>
    cases us with
    | nil => simp [slashed]
    | cons u us => simp [slashed]
  | cons t ts ih =>
    cases us with
    | nil => simp [slashed]
    | cons u us =>
      have hus : ∀ t ∈ us, t.WellFormed := fun t h => hu t (by simp [h])
      have hih := ih (fun t h => ht t (by simp [h])) hus
      constructor
      · rintro ⟨r, hr⟩
        have h' : t.raw.toList ++ (slashed ts ++ '/' :: r) = u.raw.toList ++ slashed us := by
          simpa [slashed] using hr
        -- the tokens end at the slashes behind them, and both texts have one there
        have hraw : t.raw.toList = u.raw.toList := by
          have hw := congrArg (List.takeWhile (· != '/')) h'
          rw [takeWhile_slashed (hu u (by simp)).2] at hw
          rw [← hw]
          obtain ⟨s, hs⟩ : ∃ s, slashed ts ++ '/' :: r = '/' :: s := by
            cases ts <;> simp [slashed]
          rw [hs, takeWhile_append_slash (ht t (by simp)).2]
        have htu : t = u := by
          obtain ⟨a⟩ := t
          obtain ⟨b⟩ := u
          rw [show a = b from String.ext hraw]
        rw [hraw, List.append_cancel_left_eq] at h'
        obtain ⟨hp, hne⟩ := hih.1 ⟨r, by simpa using h'⟩
        subst htu
        exact ⟨by simpa using hp, by simpa using hne⟩
      · rintro ⟨hp, hne⟩
        obtain ⟨rfl, htail⟩ := List.cons_prefix_cons.1 hp
        obtain ⟨r, hr⟩ := hih.2 ⟨htail, by simpa using hne⟩
        refine ⟨r, ?_⟩
        simp only [slashed, List.flatMap_cons, List.append_assoc] at hr ⊢
        rw [hr]

theorem isAncestorOf_iff_tokens {p q : Pointer} :
    p.isAncestorOf q = true ↔ p.tokens <+: q.tokens ∧ p.tokens ≠ q.tokens := by
  rw [isAncestorOf, List.isPrefixOf_iff_prefix, ← slashed_tokens p, ← slashed_tokens q]
  exact slashed_prefix_iff (fun _ => wellFormed_of_mem_tokens) (fun _ => wellFormed_of_mem_tokens)

theorem isAncestorOf_iff {p q : Pointer} :
    p.isAncestorOf q = true ↔ p.decoded <+: q.decoded ∧ p.decoded ≠ q.decoded := by
  rw [isAncestorOf_iff_tokens]
  constructor
  · rintro ⟨hp, hne⟩
    refine ⟨hp.map _, fun h => hne ?_⟩
    rw [← map_ofDecoded_decoded, h, map_ofDecoded_decoded]
  · rintro ⟨hp, hne⟩
    refine ⟨?_, fun h => hne (congrArg (List.map Token.toDecoded) h)⟩
    rw [← map_ofDecoded_decoded p, ← map_ofDecoded_decoded q]
    exact hp.map _

/-! ## Order -/

theorem lt_iff {p q : Pointer} : p < q ↔ p.text < q.text := Iff.rfl

theorem lt_of_isAncestorOf {p q : Pointer} (h : p.isAncestorOf q = true) : p < q := by
  rw [isAncestorOf, List.isPrefixOf_iff_prefix] at h
  obtain ⟨r, hr⟩ := h
  have hnil : ([] : List Char) < ['/'] ++ r := List.nil_lt_cons _ _
  rw [lt_iff, String.lt_iff, ← hr, List.append_assoc]
  have hlt : p.text.toList ++ [] < p.text.toList ++ (['/'] ++ r) := List.append_left_lt hnil
  simpa using hlt

theorem lt_irrefl (p : Pointer) : ¬p < p := String.lt_irrefl p.text

theorem lt_trans {p q r : Pointer} (hpq : p < q) (hqr : q < r) : p < r := String.lt_trans hpq hqr

theorem lt_or_eq_or_lt (p q : Pointer) : p < q ∨ p = q ∨ q < p := by
  rcases Std.lt_trichotomy p.text q.text with h | h | h
  · exact .inl h
  · obtain ⟨text, valid⟩ := p
    subst h
    exact .inr (.inl rfl)
  · exact .inr (.inr h)

theorem mem_insertAscending {p q : Pointer} {ps : List Pointer} :
    q ∈ insertAscending p ps ↔ q = p ∨ q ∈ ps := by
  induction ps with
  | nil => simp [insertAscending]
  | cons r ps ih =>
    rw [insertAscending]
    split
    · simp
    · split
      · next h => simp [h]
      · simp only [List.mem_cons, ih]
        exact ⟨by rintro (h | h | h) <;> simp [h], by rintro (h | h | h) <;> simp [h]⟩

theorem pairwise_insertAscending {p : Pointer} {ps : List Pointer}
    (h : ps.Pairwise fun a b => a < b) : (insertAscending p ps).Pairwise fun a b => a < b := by
  induction ps with
  | nil => simp [insertAscending]
  | cons r ps ih =>
    obtain ⟨hr, hps⟩ := List.pairwise_cons.1 h
    rw [insertAscending]
    split
    · next hp =>
      refine List.pairwise_cons.2 ⟨?_, h⟩
      intro q hq
      rcases List.mem_cons.1 hq with rfl | hq
      · exact hp
      · exact lt_trans hp (hr q hq)
    · next hp =>
      split
      · exact h
      · next hne =>
        refine List.pairwise_cons.2 ⟨?_, ih hps⟩
        intro q hq
        rcases mem_insertAscending.1 hq with rfl | hq
        · exact ((lt_or_eq_or_lt q r).resolve_left hp).resolve_left hne
        · exact hr q hq

theorem foldl_insertAscending_spec (ps sorted : List Pointer)
    (h : sorted.Pairwise fun a b => a < b) :
    (ps.foldl (fun sorted p => insertAscending p sorted) sorted).Pairwise (fun a b => a < b) ∧
    ∀ q, q ∈ ps.foldl (fun sorted p => insertAscending p sorted) sorted ↔ q ∈ ps ∨ q ∈ sorted := by
  induction ps generalizing sorted with
  | nil => simpa using h
  | cons p ps ih =>
    obtain ⟨hp, hm⟩ := ih (insertAscending p sorted) (pairwise_insertAscending h)
    refine ⟨hp, fun q => ?_⟩
    rw [List.foldl_cons, hm q, mem_insertAscending, List.mem_cons]
    exact ⟨by rintro (h | h | h) <;> simp [h], by rintro ((h | h) | h) <;> simp [h]⟩

theorem pairwise_ascending (ps : List Pointer) : (ascending ps).Pairwise fun a b => a < b :=
  (foldl_insertAscending_spec ps [] List.Pairwise.nil).1

theorem mem_ascending {p : Pointer} {ps : List Pointer} : p ∈ ascending ps ↔ p ∈ ps := by
  rw [ascending, (foldl_insertAscending_spec ps [] List.Pairwise.nil).2 p]
  simp

/-! ## Array indices -/

def indexText (i : Nat) : String :=
  String.ofList (Nat.toDigits 10 i)

theorem pushIndex_eq (p : Pointer) (i : Nat) : p.pushIndex i = p.push (indexText i) := rfl

theorem indexText_injective {i j : Nat} (h : indexText i = indexText j) : i = j := by
  have hd : Nat.toDigits 10 i = Nat.toDigits 10 j := by
    simpa [indexText] using congrArg String.toList h
  rw [← Nat.ofDigitChars_ten_toDigits (n := i), hd, Nat.ofDigitChars_ten_toDigits]

theorem toDigits_ofDigitChars_snoc {n : Nat} (hn : 0 < n) {r : List Char}
    (hr : r.all Char.isDigit = true) :
    Nat.toDigits 10 (Nat.ofDigitChars 10 r n) = Nat.toDigits 10 n ++ r := by
  induction r generalizing n with
  | nil => simp
  | cons c r ih =>
    rw [List.all_cons, Bool.and_eq_true] at hr
    have hc : 48 ≤ c.toNat ∧ c.toNat ≤ 57 := Char.isDigit_iff_toNat.1 hr.1
    have hchar : Nat.digitChar (c.toNat - 48) = c := by
      rw [← Char.toNat_inj, Nat.toNat_digitChar_of_lt_ten (by omega)]
      omega
    rw [Nat.ofDigitChars_cons, ih (by omega) hr.2]
    rw [show c.toNat - '0'.toNat = c.toNat - 48 from rfl,
      ← Nat.toDigits_append_toDigits (by decide) hn (by omega : c.toNat - 48 < 10),
      Nat.toDigits_of_lt_base (by omega : c.toNat - 48 < 10), hchar]
    simp

theorem Token.raw_eq_of_index? {t : Token} {i : Nat} (h : t.index? = some i) :
    t.raw = indexText i := by
  apply String.ext
  unfold index? at h
  split at h
  · next hraw =>
    obtain rfl : 0 = i := by simpa using h
    rw [hraw]
    rfl
  · next c r _ hraw =>
    split at h
    · next hc =>
      simp only at h
      split at h
      · have hi : Nat.ofDigitChars 10 (c :: r) 0 = i := by simpa using h
        have hd : 49 ≤ c.toNat ∧ c.toNat ≤ 57 := ⟨hc.1, hc.2.1⟩
        have hchar : Nat.digitChar (c.toNat - 48) = c := by
          rw [← Char.toNat_inj, Nat.toNat_digitChar_of_lt_ten (by omega)]
          omega
        rw [hraw, ← hi, indexText, String.toList_ofList, Nat.ofDigitChars_cons,
          show 10 * 0 + (c.toNat - '0'.toNat) = c.toNat - 48 from by simp,
          toDigits_ofDigitChars_snoc (by omega) hc.2.2, Nat.toDigits_of_lt_base (by omega), hchar]
        rfl
      · simp at h
    · simp at h
  · simp at h

theorem Token.toDecoded_eq_of_index? {t : Token} {i : Nat} (h : t.index? = some i) :
    t.toDecoded = indexText i := by
  have hraw := Token.raw_eq_of_index? h
  have htilde : '~' ∉ t.raw.toList := by
    rw [hraw, indexText, String.toList_ofList]
    intro hm
    exact absurd (Nat.isDigit_of_mem_toDigits (by decide) (by decide) hm) (by decide)
  rw [Token.toDecoded, if_neg htilde, hraw]

end SelectiveDisclosure.Pointer
