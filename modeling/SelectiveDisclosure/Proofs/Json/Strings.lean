import SelectiveDisclosure.Json.Parser
import SelectiveDisclosure.Json.Printer

/-!
# Texts read back

What is written between quotes is read as the same text, each character by its escape.
-/

set_option autoImplicit false

namespace SelectiveDisclosure.Json

theorem stringRest_quote (s : List Char) : stringRest ('"' :: s) = some ([], s) := by
  rw [stringRest]

theorem stringRest_escape {e c : Char} (he : e ≠ 'u') (h : plainEscape? e = some c)
    (s : List Char) :
    stringRest ('\\' :: e :: s) = (stringRest s).map fun r => (c :: r.1, r.2) := by
  rw [stringRest]
  · rw [h]
    cases stringRest s <;> rfl
  · intro a b c d s' heq
    exact absurd heq he

theorem stringRest_hex {a b c d : Char} {n : Nat} (h : hex4? a b c d = some n) (hn : n < 0xd800)
    (s : List Char) : stringRest ('\\' :: 'u' :: a :: b :: c :: d :: s) =
      (stringRest s).map fun r => (Char.ofNat n :: r.1, r.2) := by
  have hhigh : isHighSurrogate n = false := by simp [isHighSurrogate]; omega
  have hlow : isLowSurrogate n = false := by simp [isLowSurrogate]; omega
  rw [stringRest, h]
  simp only [Option.bind_eq_bind, Option.bind_some, hhigh, hlow]
  cases stringRest s <;> rfl

theorem stringRest_plain {c : Char} (hq : c ≠ '"') (hb : c ≠ '\\') (hc : 32 ≤ c.toNat)
    (s : List Char) : stringRest (c :: s) = (stringRest s).map fun r => (c :: r.1, r.2) := by
  have hno : ¬(c = '\\' ∨ c.toNat < 32) := by
    rintro (h | h)
    · exact hb h
    · omega
  rw [stringRest]
  · rw [if_neg hno]
    cases stringRest s <;> rfl
  · exact hq
  · intro a b c d s' heq _
    exact hb heq
  · intro e s' heq _
    exact hb heq

theorem hex4?_control {c : Char} (h : c.toNat < 32) :
    hex4? '0' '0' (Nat.digitChar (c.toNat / 16)) (Nat.digitChar (c.toNat % 16)) =
      some c.toNat := by
  have hall : ∀ n < 32, hex4? '0' '0' (Nat.digitChar (n / 16)) (Nat.digitChar (n % 16)) =
      some n := by decide
  exact hall c.toNat h

theorem stringRest_escaped (c : Char) (s : List Char) :
    stringRest (escaped c ++ s) = (stringRest s).map fun r => (c :: r.1, r.2) := by
  rw [escaped]
  by_cases hq : c = '"'
  · rw [if_pos hq, hq]
    exact stringRest_escape (by decide) rfl s
  rw [if_neg hq]
  by_cases hb : c = '\\'
  · rw [if_pos hb, hb]
    exact stringRest_escape (by decide) rfl s
  rw [if_neg hb]
  by_cases h8 : c = '\x08'
  · rw [if_pos h8, h8]
    exact stringRest_escape (by decide) rfl s
  rw [if_neg h8]
  by_cases hf : c = '\x0c'
  · rw [if_pos hf, hf]
    exact stringRest_escape (by decide) rfl s
  rw [if_neg hf]
  by_cases hn : c = '\n'
  · rw [if_pos hn, hn]
    exact stringRest_escape (by decide) rfl s
  rw [if_neg hn]
  by_cases hr : c = '\r'
  · rw [if_pos hr, hr]
    exact stringRest_escape (by decide) rfl s
  rw [if_neg hr]
  by_cases ht : c = '\t'
  · rw [if_pos ht, ht]
    exact stringRest_escape (by decide) rfl s
  rw [if_neg ht]
  by_cases hc : c.toNat < 32
  · rw [if_pos hc]
    have h := stringRest_hex (hex4?_control hc) (by omega) s
    rw [Char.ofNat_toNat] at h
    exact h
  · rw [if_neg hc]
    exact stringRest_plain hq hb (by omega) s

theorem stringRest_flatMap_escaped (cs s : List Char) :
    stringRest (cs.flatMap escaped ++ '"' :: s) = some (cs, s) := by
  induction cs with
  | nil => exact stringRest_quote s
  | cons c r ih =>
    rw [List.flatMap_cons, List.append_assoc, stringRest_escaped, ih, Option.map_some]

theorem quoted?_stringChars (t : String) (s : List Char) :
    quoted? (stringChars t ++ s) = some (t, s) := by
  rw [stringChars, List.append_assoc, List.cons_append, quoted?, List.singleton_append,
    stringRest_flatMap_escaped]
  simp

end SelectiveDisclosure.Json
