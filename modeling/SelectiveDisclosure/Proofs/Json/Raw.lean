import SelectiveDisclosure.Json.Raw
import SelectiveDisclosure.Proofs.Json.Text

/-!
# Members passed over

The text of an object of texts and integers splits into the names of its members and the octets of
their values, as they are written.
-/

set_option autoImplicit false

namespace SelectiveDisclosure.Json

namespace Raw

/-! ## Texts -/

theorem utf8Encode_of_ascii {cs : List Char} (h : ∀ c ∈ cs, c.toNat < 128) :
    cs.flatMap String.utf8EncodeChar = cs.map octet := by
  induction cs with
  | nil => rfl
  | cons c r ih =>
    obtain ⟨hc, hr⟩ := List.forall_mem_cons.1 h
    rw [List.flatMap_cons, ih hr, Octets.utf8EncodeChar_of_lt hc]
    rfl

theorem skipText_quote (s : Octets) : skipText (octet '"' :: s) = some s := by
  rw [skipText.eq_def]
  exact if_pos rfl

theorem skipText_cons {b : UInt8} (hq : b ≠ octet '"') (hb : b ≠ octet '\\')
    (hlt : ¬b < octet ' ') (s : Octets) : skipText (b :: s) = skipText s := by
  rw [skipText.eq_def]
  simp only [if_neg hq, if_neg hb, if_neg hlt]

theorem skipText_plain {bs : Octets}
    (h : ∀ b ∈ bs, b ≠ octet '"' ∧ b ≠ octet '\\' ∧ ¬b < octet ' ') (s : Octets) :
    skipText (bs ++ s) = skipText s := by
  induction bs with
  | nil => rfl
  | cons b r ih =>
    obtain ⟨⟨hq, hb, hlt⟩, hr⟩ := List.forall_mem_cons.1 h
    rw [List.cons_append, skipText_cons hq hb hlt, ih hr]

theorem skipText_escape {e : UInt8} (he : e ≠ octet 'u') (h : isPlainEscape e = true)
    (s : Octets) : skipText (octet '\\' :: e :: s) = skipText s := by
  have hq : octet '\\' ≠ octet '"' := by decide
  rw [skipText.eq_def]
  simp only [if_neg hq, if_pos, if_neg he, if_pos h]

theorem skipText_hex {a b c d : UInt8} (h : [a, b, c, d].all isHexDigit = true) (s : Octets) :
    skipText (octet '\\' :: octet 'u' :: a :: b :: c :: d :: s) = skipText s := by
  have hq : octet '\\' ≠ octet '"' := by decide
  rw [skipText.eq_def]
  simp only [if_neg hq, if_pos, if_pos h]

theorem isHexDigit_digitChar {n : Nat} (h : n < 16) :
    isHexDigit (octet (Nat.digitChar n)) = true := by
  have hall : ∀ n < 16, isHexDigit (octet (Nat.digitChar n)) = true := by decide
  exact hall n h

/-- A character that is written as it is has no octet with a meaning of its own. -/
theorem plain_of_mem_utf8EncodeChar {c : Char} (hq : c ≠ '"') (hb : c ≠ '\\')
    (hc : ¬c.toNat < 32) {b : UInt8} (h : b ∈ String.utf8EncodeChar c) :
    b ≠ octet '"' ∧ b ≠ octet '\\' ∧ ¬b < octet ' ' := by
  by_cases hlt : c.toNat < 128
  · rw [Octets.utf8EncodeChar_of_lt hlt, List.mem_singleton] at h
    subst h
    have hnat : (UInt8.ofNat c.toNat).toNat = c.toNat := by
      rw [UInt8.toNat_ofNat']
      omega
    have hne {d : Char} (hd : d.toNat < 128) (hcd : c ≠ d) : UInt8.ofNat c.toNat ≠ octet d := by
      intro heq
      have hsame := congrArg UInt8.toNat heq
      rw [hnat, octet, UInt8.toNat_ofNat', Nat.mod_eq_of_lt (by omega)] at hsame
      exact hcd (Char.toNat_inj.1 hsame)
    refine ⟨hne (by decide) hq, hne (by decide) hb, ?_⟩
    rw [UInt8.lt_iff_toNat_lt, hnat]
    exact hc
  · have hle := Octets.le_of_mem_utf8EncodeChar (by omega) h
    rw [UInt8.le_iff_toNat_le] at hle
    have hge : 128 ≤ b.toNat := hle
    refine ⟨?_, ?_, ?_⟩
    · rintro rfl
      exact absurd hge (by decide)
    · rintro rfl
      exact absurd hge (by decide)
    · rw [UInt8.lt_iff_toNat_lt]
      show ¬b.toNat < 32
      omega

theorem skipText_escaped (c : Char) (s : Octets) :
    skipText ((escaped c).flatMap String.utf8EncodeChar ++ s) = skipText s := by
  have hplain {e : Char} (hlt : e.toNat < 128) (he : octet e ≠ octet 'u')
      (h : isPlainEscape (octet e) = true) :
      skipText (['\\', e].flatMap String.utf8EncodeChar ++ s) = skipText s := by
    rw [utf8Encode_of_ascii (List.forall_mem_cons.2 ⟨by decide, List.forall_mem_singleton.2 hlt⟩)]
    exact skipText_escape he h s
  rw [escaped]
  split
  · exact hplain (by decide) (by decide) (by decide)
  split
  · exact hplain (by decide) (by decide) (by decide)
  split
  · exact hplain (by decide) (by decide) (by decide)
  split
  · exact hplain (by decide) (by decide) (by decide)
  split
  · exact hplain (by decide) (by decide) (by decide)
  split
  · exact hplain (by decide) (by decide) (by decide)
  split
  · exact hplain (by decide) (by decide) (by decide)
  next hq hb _ _ _ _ _ =>
  split
  · next hc =>
    have hhigh : c.toNat / 16 < 16 := by omega
    have hlow : c.toNat % 16 < 16 := Nat.mod_lt _ (by decide)
    have hascii : ∀ n < 16, (Nat.digitChar n).toNat < 128 := by decide
    rw [utf8Encode_of_ascii]
    · refine skipText_hex ?_ s
      simp only [List.all_cons, isHexDigit_digitChar hhigh, isHexDigit_digitChar hlow,
        List.all_nil]
      decide
    · simp only [List.mem_cons, List.not_mem_nil, or_false]
      rintro d (rfl | rfl | rfl | rfl | rfl | rfl)
      · decide
      · decide
      · decide
      · decide
      · exact hascii _ hhigh
      · exact hascii _ hlow
  · next hc =>
    rw [List.flatMap_singleton]
    exact skipText_plain (fun b hm => plain_of_mem_utf8EncodeChar hq hb hc hm) s

theorem skipText_flatMap_escaped (cs : List Char) (s : Octets) :
    skipText ((cs.flatMap escaped).flatMap String.utf8EncodeChar ++ octet '"' :: s) = some s := by
  induction cs with
  | nil => rw [List.flatMap_nil, List.flatMap_nil, List.nil_append, skipText_quote]
  | cons c r ih =>
    rw [List.flatMap_cons, List.flatMap_append, List.append_assoc, skipText_escaped, ih]

theorem stringOctets_eq (s : String) :
    (stringChars s).flatMap String.utf8EncodeChar =
      octet '"' :: ((s.toList.flatMap escaped).flatMap String.utf8EncodeChar ++ [octet '"']) := by
  have hquote : String.utf8EncodeChar '"' = [octet '"'] := Octets.utf8EncodeChar_of_lt (by decide)
  rw [stringChars_eq_cons, List.flatMap_cons, List.flatMap_append, List.flatMap_singleton, hquote]
  rfl

/-! ## Values -/

/-- A comma follows, or the bracket that closes an object. -/
def Closes (s : Octets) : Prop :=
  ∃ b r, s = b :: r ∧ (b = octet ',' ∨ b = octet '\x7d')

/-- What is written is passed over as one value, whatever may follow it. -/
def IsPassed (bs : Octets) : Prop :=
  ∀ s, Closes s → value? (bs ++ s) = some (bs, s)

theorem skipBlanks_cons {b : UInt8} (h : isBlank b = false) (s : Octets) :
    skipBlanks (b :: s) = b :: s := by
  rw [skipBlanks, List.dropWhile_cons, h]
  rfl

theorem value?_append {bs s : Octets} (hne : bs ≠ [])
    (h : ∀ d, skipWithin (d + 1) (bs ++ s) = some s) : value? (bs ++ s) = some (bs, s) := by
  have hlength : (bs ++ s).length = (bs ++ s).length - 1 + 1 := by
    have hpos := List.length_pos_iff.2 hne
    rw [List.length_append]
    omega
  have htake : (bs ++ s).take ((bs ++ s).length - s.length) = bs := by
    rw [List.length_append, Nat.add_sub_cancel, List.take_left']
    rfl
  rw [value?, hlength, h, Option.map_some, ← hlength, htake]

theorem isPassed_string (s : String) : IsPassed (Value.string s).octets := by
  intro t _
  rw [Value.octets_eq, Value.chars, stringOctets_eq]
  refine value?_append (List.cons_ne_nil _ _) fun d => ?_
  rw [List.cons_append, List.append_assoc, skipWithin, skipBlanks_cons (by decide)]
  have harray : octet '"' ≠ octet '[' := by decide
  have hobject : octet '"' ≠ octet '\x7b' := by decide
  simp only [if_neg harray, if_neg hobject, if_pos]
  exact skipText_flatMap_escaped s.toList t

/-! ## Integers -/

theorem toNat_of_isDigit {c : Char} (h : c.isDigit = true) : 48 ≤ c.toNat ∧ c.toNat ≤ 57 := by
  simp only [Char.isDigit, Bool.and_eq_true, decide_eq_true_eq, UInt32.le_iff_toNat_le] at h
  exact h

theorem toNat_of_mem_toDigits {n : Nat} {c : Char} (h : c ∈ Nat.toDigits 10 n) :
    48 ≤ c.toNat ∧ c.toNat ≤ 57 :=
  toNat_of_isDigit (Nat.isDigit_of_mem_toDigits (by decide) (by decide) h)

theorem isDigit_octet {c : Char} (h : 48 ≤ c.toNat ∧ c.toNat ≤ 57) :
    isDigit (octet c) = true := by
  have hall : ∀ n < 58, 48 ≤ n → isDigit (UInt8.ofNat n) = true := by decide
  exact hall c.toNat (by omega) h.1

section Digits
variable {s : Octets} (hs : Closes s)
include hs

theorem skipDigits_append {ds : Octets} (hne : ds ≠ []) (h : ∀ b ∈ ds, isDigit b = true) :
    skipDigits (ds ++ s) = some s := by
  obtain ⟨b, r, rfl, hb⟩ := hs
  have hdigit : isDigit b = false := by rcases hb with rfl | rfl <;> decide
  have htake : ((ds ++ b :: r).takeWhile isDigit).isEmpty = false := by
    rw [List.takeWhile_append_of_pos h, List.takeWhile_cons, hdigit]
    cases ds with
    | nil => exact absurd rfl hne
    | cons d ds => rfl
  rw [skipDigits, htake, List.dropWhile_append_of_pos h, List.dropWhile_cons, hdigit]
  rfl

theorem skipFraction_of_closes : skipFraction s = some s := by
  obtain ⟨b, r, rfl, hb⟩ := hs
  have hne : b ≠ octet '.' := by rcases hb with rfl | rfl <;> decide
  exact if_neg hne

theorem skipExponent_of_closes : skipExponent s = some s := by
  obtain ⟨b, r, rfl, hb⟩ := hs
  have hne : ¬(b = octet 'e' ∨ b = octet 'E') := by rcases hb with rfl | rfl <;> decide
  exact if_neg hne

theorem skipWhole_toDigits (n : Nat) :
    skipWhole ((Nat.toDigits 10 n).map octet ++ s) = some s := by
  have hdigits : ∀ b ∈ (Nat.toDigits 10 n).map octet, isDigit b = true := by
    intro b hb
    obtain ⟨c, hc, rfl⟩ := List.mem_map.1 hb
    exact isDigit_octet (toNat_of_mem_toDigits hc)
  by_cases hn : 0 < n
  · have hne := Number.head?_toDigits_ne hn
    cases hd : Nat.toDigits 10 n with
    | nil => exact absurd hd Nat.toDigits_ne_nil
    | cons c r =>
      rw [hd] at hdigits hne
      have hzero : octet c ≠ octet '0' := by
        have hdigit := toNat_of_mem_toDigits (hd ▸ List.mem_cons_self : c ∈ Nat.toDigits 10 n)
        intro heq
        refine hne (congrArg some ?_)
        have hsame := congrArg UInt8.toNat heq
        rw [octet, octet, UInt8.toNat_ofNat', Nat.mod_eq_of_lt (by omega)] at hsame
        exact Char.toNat_inj.1 hsame
      rw [List.map_cons, List.cons_append, skipWhole, if_neg hzero]
      exact skipDigits_append hs (List.cons_ne_nil _ _) hdigits
  · obtain ⟨b, r, rfl, hb⟩ := hs
    have hdigit : isDigit b = false := by rcases hb with rfl | rfl <;> decide
    rw [show n = 0 by omega, Nat.toDigits_zero, List.map_cons, List.map_nil, List.singleton_append,
      skipWhole, if_pos rfl, List.head?_cons, Option.map_some, hdigit]
    rfl

theorem skipNumber_intChars (n : Int) :
    skipNumber ((Number.intChars n).map octet ++ s) = some s := by
  have hwhole : ∀ r, skipWhole r = some s →
      ((skipWhole r).bind fun a => (skipFraction a).bind skipExponent) = some s := by
    intro r hr
    rw [hr, Option.bind_some, skipFraction_of_closes hs, Option.bind_some,
      skipExponent_of_closes hs]
  have hdigits := hwhole _ (skipWhole_toDigits hs n.natAbs)
  rw [Number.intChars]
  by_cases hn : n < 0
  · rw [if_pos hn, List.singleton_append, List.map_cons, List.cons_append]
    exact hdigits
  · rw [if_neg hn, List.nil_append]
    cases hd : Nat.toDigits 10 n.natAbs with
    | nil => exact absurd hd Nat.toDigits_ne_nil
    | cons c r =>
      have hminus : octet c ≠ octet '-' := by
        have hdigit := isDigit_octet (toNat_of_mem_toDigits
          (hd ▸ List.mem_cons_self : c ∈ Nat.toDigits 10 n.natAbs))
        intro heq
        rw [heq] at hdigit
        exact absurd hdigit (by decide)
      rw [hd] at hdigits
      rw [List.map_cons, List.cons_append, skipNumber.eq_def]
      simp only [if_neg hminus]
      exact hdigits

end Digits

theorem isPassed_integer (n : Int)
    (fits : -0x8000000000000000 ≤ n ∧ n < 0x10000000000000000) :
    IsPassed (Value.number (.integer n fits)).octets := by
  intro t ht
  have hbegins : ∃ c r, Number.intChars n = c :: r ∧ c.toNat < 58 ∧ 45 ≤ c.toNat := by
    rw [Number.intChars]
    by_cases hn : n < 0
    · rw [if_pos hn]
      exact ⟨'-', _, rfl, by decide, by decide⟩
    · rw [if_neg hn, List.nil_append]
      cases hd : Nat.toDigits 10 n.natAbs with
      | nil => exact absurd hd Nat.toDigits_ne_nil
      | cons c r =>
        have hdigit := toNat_of_mem_toDigits
          (hd ▸ List.mem_cons_self : c ∈ Nat.toDigits 10 n.natAbs)
        exact ⟨c, r, rfl, by omega, by omega⟩
  have hascii : ∀ c ∈ Number.intChars n, c.toNat < 128 := by
    intro c hc
    rw [Number.intChars, List.mem_append] at hc
    rcases hc with hc | hc
    · split at hc
      · rw [List.mem_singleton.1 hc]
        decide
      · cases hc
    · have hdigit := toNat_of_mem_toDigits hc
      omega
  obtain ⟨c, r, hcons, hlt, hge⟩ := hbegins
  have hnumber := skipNumber_intChars ht n
  rw [Value.octets_eq, Value.chars, Number.chars, utf8Encode_of_ascii hascii]
  rw [hcons, List.map_cons] at hnumber ⊢
  refine value?_append (List.cons_ne_nil _ _) fun d => ?_
  have hother : ∀ n < 58, 45 ≤ n → isBlank (UInt8.ofNat n) = false ∧
      UInt8.ofNat n ≠ octet '[' ∧ UInt8.ofNat n ≠ octet '\x7b' ∧ UInt8.ofNat n ≠ octet '"' ∧
      UInt8.ofNat n ≠ octet 'n' ∧ UInt8.ofNat n ≠ octet 't' ∧ UInt8.ofNat n ≠ octet 'f' := by
    decide
  obtain ⟨hblank, ha, ho, hq, hnull, htrue, hfalse⟩ := hother c.toNat hlt hge
  rw [List.cons_append, skipWithin, skipBlanks_cons (b := octet c) hblank]
  have hb : ∀ e : Char, UInt8.ofNat c.toNat ≠ octet e → octet c ≠ octet e := fun e h => h
  simp only [if_neg (hb _ ha), if_neg (hb _ ho), if_neg (hb _ hq), if_neg (hb _ hnull),
    if_neg (hb _ htrue), if_neg (hb _ hfalse)]
  exact hnumber

/-! ## Members -/

def written (m : String × Value) : Octets × Octets :=
  ((Value.string m.1).octets, m.2.octets)

theorem name?_stringOctets (name : String) (s : Octets) :
    name? ((Value.string name).octets ++ s) = some ((Value.string name).octets, s) := by
  rw [Value.octets_eq, Value.chars, stringOctets_eq, List.cons_append, name?,
    skipBlanks_cons (by decide)]
  simp only [if_pos]
  rw [List.append_assoc, List.singleton_append, skipText_flatMap_escaped, Option.map_some]
  have htake (a b : Octets) (q : UInt8) :
      (a ++ q :: b).take ((a ++ q :: b).length - b.length) = a ++ [q] := by
    rw [← List.singleton_append, ← List.append_assoc, List.length_append, Nat.add_sub_cancel,
      List.take_left']
    rfl
  rw [htake]

theorem memberOctets_eq (m : String × Value) :
    (memberChars m.1 m.2.chars).flatMap String.utf8EncodeChar =
      (written m).1 ++ octet ':' :: (written m).2 := by
  have hcolon : String.utf8EncodeChar ':' = [octet ':'] := Octets.utf8EncodeChar_of_lt (by decide)
  rw [memberChars, List.flatMap_append, List.flatMap_cons, hcolon, written, Value.octets_eq,
    Value.octets_eq, Value.chars]
  rfl

theorem member?_written {m : String × Value} (h : IsPassed m.2.octets) {s : Octets}
    (hs : Closes s) :
    member? value? ((written m).1 ++ octet ':' :: (written m).2 ++ s) = some (written m, s) := by
  rw [List.append_assoc, List.cons_append, member?, written, name?_stringOctets]
  simp only [Option.bind_eq_bind, Option.bind_some]
  rw [skipBlanks_cons (by decide)]
  simp only [if_pos, h s hs]
  rfl

theorem items?_written {ms : Members} (h : ∀ m ∈ ms, IsPassed m.2.octets) (hne : ms ≠ [])
    {k : Nat} (hk : ms.length ≤ k) (s : Octets) :
    items? (member? value?) (octet '\x7d') k
      ((commaSeparated (Value.membersChars ms)).flatMap String.utf8EncodeChar ++
        octet '\x7d' :: s) = some (ms.map written, s) := by
  induction ms generalizing k with
  | nil => exact absurd rfl hne
  | cons m r ih =>
    obtain ⟨hm, hr⟩ := List.forall_mem_cons.1 h
    obtain ⟨k, rfl⟩ : ∃ j, k = j + 1 := ⟨k - 1, by rw [List.length_cons] at hk; omega⟩
    cases r with
    | nil =>
      rw [Value.membersChars, Value.membersChars, commaSeparated_singleton, memberOctets_eq,
        items?, member?_written hm ⟨_, s, rfl, .inr rfl⟩]
      have hcomma : octet '\x7d' ≠ octet ',' := by decide
      simp only [Option.bind_eq_bind, Option.bind_some]
      rw [skipBlanks_cons (by decide)]
      simp only [if_neg hcomma, if_pos]
      rfl
    | cons n r =>
      have hrest := ih hr (List.cons_ne_nil n r) (Nat.le_of_succ_le_succ hk)
      have hcomma : String.utf8EncodeChar ',' = [octet ','] :=
        Octets.utf8EncodeChar_of_lt (by decide)
      rw [Value.membersChars] at hrest
      rw [Value.membersChars, Value.membersChars, commaSeparated_cons_cons, List.flatMap_append,
        memberOctets_eq, List.flatMap_cons, hcomma, List.append_assoc, items?,
        List.singleton_append, List.cons_append, member?_written hm ⟨_, _, rfl, .inl rfl⟩]
      simp only [Option.bind_eq_bind, Option.bind_some]
      rw [skipBlanks_cons (by decide)]
      simp only [if_pos, hrest]
      rfl

theorem length_le_membersOctets (ms : Members) :
    ms.length ≤
      ((commaSeparated (Value.membersChars ms)).flatMap String.utf8EncodeChar).length := by
  have hmembers : ms.length ≤ (commaSeparated (Value.membersChars ms)).length := by
    have hle := length_le_commaSeparated (Value.membersChars ms) fun p hp => by
      rw [Value.membersChars_eq_map] at hp
      obtain ⟨m, -, rfl⟩ := List.mem_map.1 hp
      rw [memberChars, stringChars_eq_cons]
      exact List.cons_ne_nil _ _
    rwa [Value.membersChars_eq_map, List.length_map, ← Value.membersChars_eq_map] at hle
  have hoctets (cs : List Char) : cs.length ≤ (cs.flatMap String.utf8EncodeChar).length := by
    induction cs with
    | nil => exact Nat.zero_le _
    | cons c r ih =>
      have hpos : 0 < (String.utf8EncodeChar c).length := by
        rw [String.length_utf8EncodeChar]
        exact c.utf8Size_pos
      rw [List.flatMap_cons, List.length_append, List.length_cons]
      omega
  exact Nat.le_trans hmembers (hoctets _)

theorem mapM_readName?_written (ms : Members) :
    (ms.map written).mapM readName? = some (ms.map fun m => (m.1, m.2.octets)) := by
  induction ms with
  | nil => rfl
  | cons m r ih =>
    have hname : readName? (written m) = some (m.1, m.2.octets) := by
      rw [readName?, written, (Value.readable_string _ _).readOctets?]
      rfl
    rw [List.map_cons, List.mapM_cons, hname, ih]
    rfl

theorem membersChars_eq_cons (m : String × Value) (r : Members) :
    ∃ cs, commaSeparated (Value.membersChars (m :: r)) = '"' :: cs := by
  cases r with
  | nil =>
    exact ⟨_, by rw [Value.membersChars, Value.membersChars, commaSeparated_singleton]; rfl⟩
  | cons n r =>
    exact ⟨_, by rw [Value.membersChars, Value.membersChars, commaSeparated_cons_cons]; rfl⟩

theorem members?_octets {ms : Members} (h : ∀ m ∈ ms, IsPassed m.2.octets) :
    members? (Value.object ms).octets = some (ms.map fun m => (m.1, m.2.octets)) := by
  have hopen : String.utf8EncodeChar '\x7b' = [octet '\x7b'] :=
    Octets.utf8EncodeChar_of_lt (by decide)
  have hclose : String.utf8EncodeChar '\x7d' = [octet '\x7d'] :=
    Octets.utf8EncodeChar_of_lt (by decide)
  have hmembers : sequence? (member? value?) (octet '\x7d')
      ((commaSeparated (Value.membersChars ms)).flatMap String.utf8EncodeChar ++
        [octet '\x7d']) = some (ms.map written, []) := by
    cases ms with
    | nil => rfl
    | cons m r =>
      have hle := length_le_membersOctets (m :: r)
      have hitems := items?_written (k := ((commaSeparated (Value.membersChars (m :: r))).flatMap
        String.utf8EncodeChar ++ [octet '\x7d']).length) h (List.cons_ne_nil m r)
        (by rw [List.length_append]; omega) []
      obtain ⟨cs, hcs⟩ := membersChars_eq_cons m r
      have hquote : String.utf8EncodeChar '"' = [octet '"'] :=
        Octets.utf8EncodeChar_of_lt (by decide)
      rw [hcs, List.flatMap_cons, hquote, List.singleton_append, List.cons_append] at hitems ⊢
      rw [sequence?, skipBlanks_cons (by decide)]
      have hne : octet '"' ≠ octet '\x7d' := by decide
      simp only [if_neg hne]
      exact hitems
  rw [Value.octets_eq, Value.chars, objectChars, List.flatMap_append, List.flatMap_cons, hopen,
    List.flatMap_singleton, hclose, List.singleton_append, List.cons_append, members?,
    skipBlanks_cons (by decide)]
  simp only [if_pos, hmembers, Option.bind_eq_bind, Option.bind_some]
  exact mapM_readName?_written ms

end Raw

end SelectiveDisclosure.Json
