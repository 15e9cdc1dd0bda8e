import Mathlib.Tactic.SplitIfs
import SelectiveDisclosure.Octets

/-!
# Octets of texts

A character of ASCII is one octet of its own number; every other character consists of octets above
ASCII. Texts and their octets are in the same order.
-/

set_option autoImplicit false

namespace SelectiveDisclosure.Octets

theorem ofText_ofList (cs : List Char) :
    ofText (String.ofList cs) = cs.flatMap String.utf8EncodeChar := by
  simp [ofText, List.utf8Encode]

theorem ofText_injective {s t : String} (h : ofText s = ofText t) : s = t := by
  have ht := text?_ofText t
  rw [← h, text?_ofText] at ht
  exact Option.some.inj ht

theorem ofText_append (s t : String) : ofText (s ++ t) = ofText s ++ ofText t := by
  simp [ofText]

theorem utf8EncodeChar_of_lt {c : Char} (h : c.toNat < 128) :
    String.utf8EncodeChar c = [UInt8.ofNat c.toNat] := by
  have hle : c.val.toNat ≤ 0x7f := by
    have hlt : c.val.toNat < 128 := h
    omega
  rw [String.utf8EncodeChar, if_pos hle]
  rfl

theorem ofText_replicate {c : Char} (h : c.toNat < 128) (n : Nat) :
    ofText (String.ofList (List.replicate n c)) = List.replicate n (UInt8.ofNat c.toNat) := by
  rw [ofText_ofList]
  induction n with
  | zero => rfl
  | succ n ih =>
    rw [List.replicate_succ, List.flatMap_cons, ih, utf8EncodeChar_of_lt h]
    rfl

theorem mem_ofText {s : String} {c : Char} (h : c.toNat < 128) (hc : c ∈ s.toList) :
    UInt8.ofNat c.toNat ∈ ofText s := by
  have hs : ofText s = s.toList.flatMap String.utf8EncodeChar := by
    rw [← ofText_ofList, String.ofList_toList]
  rw [hs, List.mem_flatMap]
  refine ⟨c, hc, ?_⟩
  rw [utf8EncodeChar_of_lt h]
  exact List.mem_singleton_self _

theorem le_ofNat_mod (n m base : Nat) (hm : 0 < m) (hbase : 128 ≤ base) (h : m + base ≤ 256) :
    128 ≤ UInt8.ofNat (n % m + base) := by
  have hlt := Nat.mod_lt n hm
  rw [UInt8.le_iff_toNat_le, UInt8.toNat_ofNat', Nat.mod_eq_of_lt (by omega)]
  show 128 ≤ n % m + base
  omega

theorem le_of_mem_utf8EncodeChar {c : Char} (h : 128 ≤ c.toNat) {b : UInt8}
    (hb : b ∈ String.utf8EncodeChar c) : 128 ≤ b := by
  have hle : ¬c.val.toNat ≤ 0x7f := by
    have hge : 128 ≤ c.val.toNat := h
    omega
  have hmod {n m base : Nat} (hm : 0 < m) (hbase : 128 ≤ base) (h : m + base ≤ 256)
      (hb : b = UInt8.ofNat (n % m + base)) : 128 ≤ b := by
    rw [hb]
    exact le_ofNat_mod n m base hm hbase h
  simp only [String.utf8EncodeChar, if_neg hle] at hb
  split at hb
  · simp only [List.mem_cons, List.not_mem_nil, or_false] at hb
    rcases hb with hb | hb <;> exact hmod (by decide) (by decide) (by decide) hb
  split at hb
  · simp only [List.mem_cons, List.not_mem_nil, or_false] at hb
    rcases hb with hb | hb | hb <;> exact hmod (by decide) (by decide) (by decide) hb
  · simp only [List.mem_cons, List.not_mem_nil, or_false] at hb
    rcases hb with hb | hb | hb | hb <;> exact hmod (by decide) (by decide) (by decide) hb

theorem toNat_ofNat_of_lt {n : Nat} (h : n < 128) : (Char.ofNat n).toNat = n := by
  have hall : ∀ n < 128, (Char.ofNat n).toNat = n := by decide
  exact hall n h

theorem ofText_ascii {bs : Octets} (h : ∀ b ∈ bs, b < 128) : ofText (ascii bs) = bs := by
  rw [ascii, ofText_ofList, List.flatMap_map]
  induction bs with
  | nil => rfl
  | cons b r ih =>
    obtain ⟨hb, hr⟩ := List.forall_mem_cons.1 h
    have hlt : b.toNat < 128 := UInt8.lt_iff_toNat_lt.1 hb
    have hn := toNat_ofNat_of_lt hlt
    rw [List.flatMap_cons, ih hr, utf8EncodeChar_of_lt (by rw [hn]; exact hlt), hn,
      UInt8.ofNat_toNat]
    rfl

/-! ## Order -/

theorem ofNat_cons_lt_iff {m n : Nat} (hm : m < 256) (hn : n < 256) {as bs : Octets} :
    UInt8.ofNat m :: as < UInt8.ofNat n :: bs ↔ m < n ∨ m = n ∧ as < bs := by
  rw [List.cons_lt_cons_iff, UInt8.lt_iff_toNat_lt, ← UInt8.toNat_inj, UInt8.toNat_ofNat',
    UInt8.toNat_ofNat', Nat.mod_eq_of_lt hm, Nat.mod_eq_of_lt hn]

theorem div_262144_mod {n : Nat} (h : n < 0x110000) : n / 262144 % 8 = n / 64 / 64 / 64 := by
  rw [Nat.mod_eq_of_lt (by omega), Nat.div_div_eq_div_mul, Nat.div_div_eq_div_mul]

theorem utf8EncodeChar_append_lt {c d : Char} (h : c < d) (as bs : Octets) :
    String.utf8EncodeChar c ++ as < String.utf8EncodeChar d ++ bs := by
  have hlt : c.val.toNat < d.val.toNat := UInt32.lt_iff_toNat_lt.1 (Char.lt_def.1 h)
  have hd : d.val.toNat < 0x110000 := by
    rcases d.valid with hvalid | hvalid
    · omega
    · exact hvalid.2
  have hc : c.val.toNat < 0x110000 := Nat.lt_trans hlt hd
  have hdigits (n : Nat) : n / 4096 = n / 64 / 64 := (Nat.div_div_eq_div_mul n 64 64).symm
  simp only [String.utf8EncodeChar, div_262144_mod hc, div_262144_mod hd, hdigits]
  -- a longer encoding begins with a greater octet; in one of the same length the digits decide
  split_ifs <;>
    simp (disch := omega) only [List.cons_append, List.nil_append, ofNat_cons_lt_iff] <;> omega

theorem flatMap_utf8EncodeChar_lt {cs ds : List Char} (h : cs < ds) :
    cs.flatMap String.utf8EncodeChar < ds.flatMap String.utf8EncodeChar := by
  induction cs generalizing ds with
  | nil =>
    cases ds with
    | nil => exact absurd h (List.lt_irrefl [])
    | cons d ds =>
      rw [List.flatMap_nil, List.flatMap_cons]
      cases he : String.utf8EncodeChar d with
      | nil => exact absurd he String.utf8EncodeChar_ne_nil
      | cons b r => exact List.nil_lt_cons _ _
  | cons c cs ih =>
    cases ds with
    | nil => exact absurd h (List.not_lt_nil _)
    | cons d ds =>
      rw [List.flatMap_cons, List.flatMap_cons]
      rcases List.cons_lt_cons_iff.1 h with hlt | ⟨rfl, hlt⟩
      · exact utf8EncodeChar_append_lt hlt _ _
      · exact List.append_left_lt (ih hlt)

theorem ofText_lt {s t : String} (h : s < t) : ofText s < ofText t := by
  have hlist := flatMap_utf8EncodeChar_lt (String.lt_iff.1 h)
  rwa [← ofText_ofList, ← ofText_ofList, String.ofList_toList, String.ofList_toList] at hlist

theorem ofText_lt_iff {s t : String} : ofText s < ofText t ↔ s < t := by
  refine ⟨fun h => ?_, ofText_lt⟩
  rcases Std.lt_trichotomy s t with hlt | rfl | hlt
  · exact hlt
  · exact absurd h (List.lt_irrefl _)
  · exact absurd h (List.lt_asymm (ofText_lt hlt))

end SelectiveDisclosure.Octets
