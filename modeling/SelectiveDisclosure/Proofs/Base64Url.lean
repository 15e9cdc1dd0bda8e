import SelectiveDisclosure.Base64Url
import SelectiveDisclosure.Proofs.Octets
import SelectiveDisclosure.Proofs.Outcome

/-!
# Base64 texts read back

Encoding writes symbols only, and decoding takes back what was encoded. Nothing else is decoded, so
what was decoded is encoded as it was.
-/

set_option autoImplicit false

namespace SelectiveDisclosure.Base64Url

theorem value?_symbol {n : Nat} (h : n < 64) : value? (symbol n) = some n := by
  have hall : ∀ n < 64, value? (symbol n) = some n := by decide
  exact hall n h

theorem valueAt_symbol {n : Nat} (h : n < 64) (offset : Nat) :
    valueAt (symbol n) offset = .ok n := by
  rw [valueAt, value?_symbol h]

theorem isSymbol_symbol {n : Nat} (h : n < 64) : isSymbol (symbol n) = true := by
  rw [isSymbol, value?_symbol h]
  rfl

theorem symbol_ne_padding {n : Nat} (h : n < 64) : symbol n ≠ padding := by
  have hall : ∀ n < 64, symbol n ≠ padding := by decide
  exact hall n h

/-! ## Octets out of the numbers of symbols -/

theorem first_split (a b : UInt8) :
    first (a.toNat / 4) (a.toNat % 4 * 16 + b.toNat / 16) = a := by
  have hb := b.toNat_lt
  have h : a.toNat / 4 * 4 + (a.toNat % 4 * 16 + b.toNat / 16) / 16 = a.toNat := by omega
  rw [first, h, UInt8.ofNat_toNat]

theorem first_last (a : UInt8) : first (a.toNat / 4) (a.toNat % 4 * 16) = a := by
  have h : a.toNat / 4 * 4 + a.toNat % 4 * 16 / 16 = a.toNat := by omega
  rw [first, h, UInt8.ofNat_toNat]

theorem second_split (a b c : UInt8) :
    second (a.toNat % 4 * 16 + b.toNat / 16) (b.toNat % 16 * 4 + c.toNat / 64) = b := by
  have hb := b.toNat_lt
  have hc := c.toNat_lt
  have h : (a.toNat % 4 * 16 + b.toNat / 16) % 16 * 16 +
      (b.toNat % 16 * 4 + c.toNat / 64) / 4 = b.toNat := by omega
  rw [second, h, UInt8.ofNat_toNat]

theorem second_last (a b : UInt8) :
    second (a.toNat % 4 * 16 + b.toNat / 16) (b.toNat % 16 * 4) = b := by
  have hb := b.toNat_lt
  have h : (a.toNat % 4 * 16 + b.toNat / 16) % 16 * 16 + b.toNat % 16 * 4 / 4 = b.toNat := by omega
  rw [second, h, UInt8.ofNat_toNat]

theorem third_split (b c : UInt8) :
    third (b.toNat % 16 * 4 + c.toNat / 64) (c.toNat % 64) = c := by
  have hc := c.toNat_lt
  have h : (b.toNat % 16 * 4 + c.toNat / 64) % 4 * 64 + c.toNat % 64 = c.toNat := by omega
  rw [third, h, UInt8.ofNat_toNat]

/-! ## Encoded texts -/

theorem isText_encode (bs : Octets) : isText (encode bs) = true := by
  induction bs using encode.induct with
  | case1 => rfl
  | case2 a =>
    have ha := a.toNat_lt
    simp only [encode, isText, List.all_cons, List.all_nil, Bool.and_true]
    rw [isSymbol_symbol (by omega), isSymbol_symbol (by omega)]
    rfl
  | case3 a b =>
    have ha := a.toNat_lt
    have hb := b.toNat_lt
    simp only [encode, isText, List.all_cons, List.all_nil, Bool.and_true]
    rw [isSymbol_symbol (by omega), isSymbol_symbol (by omega), isSymbol_symbol (by omega)]
    rfl
  | case4 a b c r ih =>
    have ha := a.toNat_lt
    have hb := b.toNat_lt
    have hc := c.toNat_lt
    simp only [encode, isText, List.all_cons]
    rw [isSymbol_symbol (by omega), isSymbol_symbol (by omega), isSymbol_symbol (by omega),
      isSymbol_symbol (by omega)]
    exact ih

theorem encode_eq_nil_iff {bs : Octets} : encode bs = [] ↔ bs = [] := by
  cases bs using encode.fun_cases <;> simp [encode]

theorem decodeFrom_encode (bs : Octets) (offset : Nat) :
    decodeFrom offset (encode bs) = .ok bs := by
  induction bs using encode.induct generalizing offset with
  | case1 => rfl
  | case2 a =>
    have ha := a.toNat_lt
    have hlast : a.toNat % 4 * 16 % 16 = 0 := by omega
    rw [encode, decodeFrom, decodeLast, valueAt_symbol (by omega), valueAt_symbol (by omega)]
    · simp only [bind, Except.bind, hlast, if_pos, first_last]
    · simp
  | case3 a b =>
    have ha := a.toNat_lt
    have hb := b.toNat_lt
    have hlast : b.toNat % 16 * 4 % 4 = 0 := by omega
    rw [encode, decodeFrom, decodeLast, valueAt_symbol (by omega), valueAt_symbol (by omega),
      valueAt_symbol (by omega)]
    · simp only [bind, Except.bind, hlast, if_pos, first_split, second_last,
        if_neg (symbol_ne_padding (show b.toNat % 16 * 4 < 64 by omega))]
    · simp
  | case4 a b c r ih =>
    have ha := a.toNat_lt
    have hb := b.toNat_lt
    have hc := c.toNat_lt
    rw [encode]
    cases hr : encode r with
    | nil =>
      rw [encode_eq_nil_iff] at hr
      rw [decodeFrom, decodeLast, valueAt_symbol (by omega), valueAt_symbol (by omega),
        valueAt_symbol (by omega), valueAt_symbol (by omega), hr]
      · simp only [bind, Except.bind, first_split, second_split, third_split,
          if_neg (symbol_ne_padding (show b.toNat % 16 * 4 + c.toNat / 64 < 64 by omega)),
          if_neg (symbol_ne_padding (show c.toNat % 64 < 64 by omega))]
      · simp
    | cons e r' =>
      have hrest := ih (offset + 4)
      rw [hr] at hrest
      rw [decodeFrom, valueAt_symbol (by omega), valueAt_symbol (by omega),
        valueAt_symbol (by omega), valueAt_symbol (by omega), hrest]
      simp only [bind, Except.bind, pure, Except.pure, first_split, second_split, third_split]

theorem decode_encode (bs : Octets) : decode (encode bs) = .ok bs := by
  rw [decode]
  cases hlast : (encode bs).getLast? with
  | none =>
    rw [List.getLast?_eq_none_iff, encode_eq_nil_iff] at hlast
    rw [hlast]
  | some b =>
    have hb : isSymbol b = true :=
      List.all_eq_true.1 (isText_encode bs) b (List.mem_of_getLast? hlast)
    have hno : ¬((encode bs).length % 4 = 1 ∧ b ≠ padding ∧ isSymbol b = false) := by
      simp [hb]
    simp only [if_neg hno, decodeFrom_encode]

theorem encode_injective {as bs : Octets} (h : encode as = encode bs) : as = bs := by
  have hdecode := congrArg decode h
  rw [decode_encode, decode_encode] at hdecode
  exact Except.ok.inj hdecode

/-! ## Decoded texts -/

theorem symbol_of_value? {b : UInt8} {n : Nat} (h : value? b = some n) :
    symbol n = b ∧ n < 64 := by
  have hall : ∀ k < 256, ∀ n ∈ value? (UInt8.ofNat k), symbol n = UInt8.ofNat k ∧ n < 64 := by
    decide +kernel
  have hb := hall b.toNat b.toNat_lt
  rw [UInt8.ofNat_toNat] at hb
  exact hb n h

theorem valueAt_eq_ok {b : UInt8} {offset n : Nat} (h : valueAt b offset = .ok n) :
    symbol n = b ∧ n < 64 := by
  rw [valueAt] at h
  split at h
  · next m hm =>
    cases h
    exact symbol_of_value? hm
  · cases h

section Group
variable {x y z w : Nat}

theorem toNat_first (hx : x < 64) (hy : y < 64) : (first x y).toNat = x * 4 + y / 16 := by
  rw [first, UInt8.toNat_ofNat']
  omega

theorem toNat_second (hz : z < 64) : (second y z).toNat = y % 16 * 16 + z / 4 := by
  rw [second, UInt8.toNat_ofNat']
  omega

theorem toNat_third (hw : w < 64) : (third z w).toNat = z % 4 * 64 + w := by
  rw [third, UInt8.toNat_ofNat']
  omega

theorem encode_one (hx : x < 64) (hy : y < 64) (hlast : y % 16 = 0) :
    encode [first x y] = [symbol x, symbol y] := by
  rw [encode, toNat_first hx hy, show (x * 4 + y / 16) / 4 = x by omega,
    show (x * 4 + y / 16) % 4 * 16 = y by omega]

theorem encode_two (hx : x < 64) (hy : y < 64) (hz : z < 64) (hlast : z % 4 = 0) :
    encode [first x y, second y z] = [symbol x, symbol y, symbol z] := by
  rw [encode, toNat_first hx hy, toNat_second hz, show (x * 4 + y / 16) / 4 = x by omega,
    show (x * 4 + y / 16) % 4 * 16 + (y % 16 * 16 + z / 4) / 16 = y by omega,
    show (y % 16 * 16 + z / 4) % 16 * 4 = z by omega]

theorem encode_three (hx : x < 64) (hy : y < 64) (hz : z < 64) (hw : w < 64) (r : Octets) :
    encode (first x y :: second y z :: third z w :: r) =
      symbol x :: symbol y :: symbol z :: symbol w :: encode r := by
  rw [encode, toNat_first hx hy, toNat_second hz, toNat_third hw,
    show (x * 4 + y / 16) / 4 = x by omega,
    show (x * 4 + y / 16) % 4 * 16 + (y % 16 * 16 + z / 4) / 16 = y by omega,
    show (y % 16 * 16 + z / 4) % 16 * 4 + (z % 4 * 64 + w) / 64 = z by omega,
    show (z % 4 * 64 + w) % 64 = w by omega]

end Group

theorem encode_of_decodeLast {offset : Nat} {s bs : Octets} (hlen : s.length ≤ 4)
    (h : decodeLast offset s = .ok bs) : encode bs = s := by
  cases s using decodeLast.fun_cases with
  | case1 =>
    cases h
    rfl
  | case2 a =>
    simp only [decodeLast, bind_eq_ok_iff] at h
    obtain ⟨x, -, h⟩ := h
    cases h
  | case3 a b =>
    simp only [decodeLast, bind_eq_ok_iff] at h
    obtain ⟨x, hx, y, hy, h⟩ := h
    obtain ⟨rfl, hltx⟩ := valueAt_eq_ok hx
    obtain ⟨rfl, hlty⟩ := valueAt_eq_ok hy
    split at h
    · next hlast =>
      cases h
      exact encode_one hltx hlty hlast
    · cases h
  | case4 a b c =>
    simp only [decodeLast, bind_eq_ok_iff] at h
    obtain ⟨x, hx, y, hy, h⟩ := h
    split at h
    · cases h
    obtain ⟨z, hz, h⟩ := bind_eq_ok_iff.1 h
    obtain ⟨rfl, hltx⟩ := valueAt_eq_ok hx
    obtain ⟨rfl, hlty⟩ := valueAt_eq_ok hy
    obtain ⟨rfl, hltz⟩ := valueAt_eq_ok hz
    split at h
    · next hlast =>
      cases h
      exact encode_two hltx hlty hltz hlast
    · cases h
  | case5 a b c d r =>
    simp only [decodeLast, bind_eq_ok_iff] at h
    obtain ⟨x, hx, y, hy, h⟩ := h
    by_cases hc : c = padding
    · rw [if_pos hc] at h
      cases h
    rw [if_neg hc] at h
    obtain ⟨z, hz, h⟩ := bind_eq_ok_iff.1 h
    by_cases hd : d = padding
    · rw [if_pos hd] at h
      cases h
    rw [if_neg hd] at h
    obtain ⟨w, hw, hbs⟩ := bind_eq_ok_iff.1 h
    cases hbs
    obtain ⟨rfl, hltx⟩ := valueAt_eq_ok hx
    obtain ⟨rfl, hlty⟩ := valueAt_eq_ok hy
    obtain ⟨rfl, hltz⟩ := valueAt_eq_ok hz
    obtain ⟨rfl, hltw⟩ := valueAt_eq_ok hw
    have hr : r = [] := by
      apply List.eq_nil_of_length_eq_zero
      simp only [List.length_cons] at hlen
      omega
    rw [encode_three hltx hlty hltz hltw, hr]
    rfl

theorem encode_of_decodeFrom {offset : Nat} {s bs : Octets} (h : decodeFrom offset s = .ok bs) :
    encode bs = s := by
  induction offset, s using decodeFrom.induct generalizing bs with
  | case1 offset a b c d e r ih =>
    simp only [decodeFrom, bind_eq_ok_iff] at h
    obtain ⟨x, hx, y, hy, z, hz, w, hw, rest, hrest, h⟩ := h
    obtain ⟨rfl, hltx⟩ := valueAt_eq_ok hx
    obtain ⟨rfl, hlty⟩ := valueAt_eq_ok hy
    obtain ⟨rfl, hltz⟩ := valueAt_eq_ok hz
    obtain ⟨rfl, hltw⟩ := valueAt_eq_ok hw
    cases h
    rw [encode_three hltx hlty hltz hltw, ih hrest]
  | case2 offset last hshort =>
    have hlen : last.length ≤ 4 := by
      cases last using decodeLast.fun_cases with
      | case5 a b c d r =>
        cases r with
        | nil => exact Nat.le_refl 4
        | cons e r => exact absurd rfl (hshort a b c d e r)
      | _ => simp
    rw [decodeFrom] at h
    · exact encode_of_decodeLast hlen h
    · exact hshort

theorem encode_of_decode {s bs : Octets} (h : decode s = .ok bs) : encode bs = s := by
  rw [decode] at h
  split at h
  · split at h
    · cases h
    · exact encode_of_decodeFrom h
  · next hlast =>
    cases h
    exact (List.getLast?_eq_none_iff.1 hlast).symm

theorem decode_eq_ok_iff {s bs : Octets} : decode s = .ok bs ↔ s = encode bs :=
  ⟨fun h => (encode_of_decode h).symm, fun h => h ▸ decode_encode bs⟩

/-! ## Texts without padding -/

theorem lt_of_isSymbol {b : UInt8} (h : isSymbol b = true) : b < 128 := by
  by_cases hb : b < 128
  · exact hb
  · have hge : 128 ≤ b.toNat := UInt8.le_iff_toNat_le.1 (UInt8.not_lt.1 hb)
    have hnone : value? b = none := by
      simp only [value?]
      rw [if_neg (by omega), if_neg (by omega), if_neg (by omega), if_neg (by omega),
        if_neg (by omega)]
    rw [isSymbol, hnone] at h
    cases h

theorem ofText_encodeText (bs : Octets) : Octets.ofText (encodeText bs) = encode bs :=
  Octets.ofText_ascii fun _ hb => lt_of_isSymbol (List.all_eq_true.1 (isText_encode bs) _ hb)

theorem encodeText_injective {as bs : Octets} (h : encodeText as = encodeText bs) : as = bs := by
  apply encode_injective
  rw [← ofText_encodeText, h, ofText_encodeText]

theorem exists_stripPadding_append (bs : Octets) :
    ∃ n, bs = stripPadding bs ++ List.replicate n padding := by
  obtain ⟨n, hn⟩ : ∃ n, bs.reverse.takeWhile (· == padding) = List.replicate n padding := by
    refine ⟨_, List.eq_replicate_iff.2 ⟨rfl, fun b hb => ?_⟩⟩
    exact beq_iff_eq.1 (List.all_eq_true.1 List.all_takeWhile b hb)
  have hsplit : bs.reverse = List.replicate n padding ++ bs.reverse.dropWhile (· == padding) := by
    rw [← hn, List.takeWhile_append_dropWhile]
  have hreverse := congrArg List.reverse hsplit
  rw [List.reverse_reverse, List.reverse_append, List.reverse_replicate] at hreverse
  exact ⟨n, hreverse⟩

theorem stripPadding_of_isText {bs : Octets} (h : isText bs = true) : stripPadding bs = bs := by
  have hnone : ∀ b ∈ bs.reverse, b ≠ padding := by
    intro b hb heq
    have hsym := List.all_eq_true.1 h b (List.mem_reverse.1 hb)
    rw [heq] at hsym
    cases hsym
  rw [stripPadding]
  cases hrev : bs.reverse with
  | nil => rw [List.reverse_eq_nil_iff.1 hrev]; rfl
  | cons b r =>
    have hb : (b == padding) = false := by
      rw [beq_eq_false_iff_ne]
      exact hnone b (by rw [hrev]; exact List.mem_cons_self)
    rw [List.dropWhile_cons, hb, ← hrev]
    exact List.reverse_reverse bs

end SelectiveDisclosure.Base64Url
