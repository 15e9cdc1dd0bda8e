import SelectiveDisclosure.Json.Printer
import SelectiveDisclosure.Proofs.Json.Rereading
import SelectiveDisclosure.Proofs.Json.Strings
import SelectiveDisclosure.Proofs.Octets

/-!
# Values read back

The text of a value that is not too deep reads as the value with its numbers read again. This is the
value itself when its numbers read back.
-/

set_option autoImplicit false

namespace SelectiveDisclosure.Json

/-! ## Blanks and commas -/

theorem skipBlanks_cons {c : Char} (h : isBlank c = false) (s : List Char) :
    skipBlanks (c :: s) = c :: s := by
  rw [skipBlanks, List.dropWhile_cons, h]
  rfl

theorem commaSeparated_nil : commaSeparated [] = [] := rfl

theorem commaSeparated_singleton (p : List Char) : commaSeparated [p] = p := by
  simp [commaSeparated]

theorem commaSeparated_cons_cons (p q : List Char) (r : List (List Char)) :
    commaSeparated (p :: q :: r) = p ++ ',' :: commaSeparated (q :: r) := by
  simp [commaSeparated, List.intercalate]

theorem length_le_commaSeparated (parts : List (List Char)) (h : ∀ p ∈ parts, p ≠ []) :
    parts.length ≤ (commaSeparated parts).length := by
  induction parts with
  | nil => exact Nat.zero_le _
  | cons p r ih =>
    obtain ⟨hp, hr⟩ := List.forall_mem_cons.1 h
    have hpos := List.length_pos_iff.2 hp
    cases r with
    | nil =>
      rw [commaSeparated_singleton]
      exact hpos
    | cons q r =>
      have hle := ih hr
      rw [commaSeparated_cons_cons]
      simp only [List.length_append, List.length_cons] at hle ⊢
      omega

/-! ## Sequences -/

section Sequence
variable {α β : Type} {item : List Char → Option (β × List Char)} {write : α → List Char}
  {again : α → β} {close : Char} {t : List Char}

theorem items?_commaSeparated (hclose : close = ']' ∨ close = '\x7d') {as : List α}
    (hitem : ∀ a ∈ as, ∀ s, Closes s → item (write a ++ s) = some (again a, s)) (hne : as ≠ [])
    {k : Nat} (hk : as.length ≤ k) :
    items? item close k (commaSeparated (as.map write) ++ close :: t) =
      some (as.map again, t) := by
  have hblank : isBlank close = false := by rcases hclose with rfl | rfl <;> rfl
  have hcomma : close ≠ ',' := by rcases hclose with rfl | rfl <;> decide
  induction as generalizing k with
  | nil => exact absurd rfl hne
  | cons a r ih =>
    obtain ⟨ha, hr⟩ := List.forall_mem_cons.1 hitem
    obtain ⟨k, rfl⟩ : ∃ j, k = j + 1 := ⟨k - 1, by rw [List.length_cons] at hk; omega⟩
    cases r with
    | nil =>
      rw [List.map_cons, List.map_nil, commaSeparated_singleton, items?,
        ha (close :: t) (closes_cons (.inr hclose) t)]
      simp only [Option.bind_eq_bind, Option.bind_some, skipBlanks_cons hblank, if_neg hcomma,
        if_pos, List.map_cons, List.map_nil]
    | cons b r =>
      have hrest := ih hr (List.cons_ne_nil b r) (Nat.le_of_succ_le_succ hk)
      rw [List.map_cons, List.map_cons, commaSeparated_cons_cons, List.append_assoc, items?,
        List.cons_append, ha _ (closes_cons (.inl rfl) _)]
      rw [List.map_cons] at hrest
      simp only [Option.bind_eq_bind, Option.bind_some, skipBlanks_cons (show isBlank ',' = false
        from rfl), if_pos, hrest]
      rfl

theorem sequence?_commaSeparated (hclose : close = ']' ∨ close = '\x7d') {as : List α}
    (hitem : ∀ a ∈ as, ∀ s, Closes s → item (write a ++ s) = some (again a, s))
    (hhead : ∀ a ∈ as, ∃ c r, write a = c :: r ∧ isBlank c = false ∧ c ≠ close) :
    sequence? item close (commaSeparated (as.map write) ++ close :: t) =
      some (as.map again, t) := by
  cases as with
  | nil =>
    have hblank : isBlank close = false := by rcases hclose with rfl | rfl <;> rfl
    rw [sequence?, List.map_nil, commaSeparated_nil, List.nil_append, skipBlanks_cons hblank]
    exact if_pos rfl
  | cons a r =>
    obtain ⟨c, s, hwrite, hblank, hne⟩ := hhead a List.mem_cons_self
    have hcons : ∃ u, commaSeparated ((a :: r).map write) ++ close :: t = c :: u := by
      cases r with
      | nil => exact ⟨_, by rw [List.map_cons, List.map_nil, commaSeparated_singleton, hwrite]; rfl⟩
      | cons b r =>
        exact ⟨_, by rw [List.map_cons, List.map_cons, commaSeparated_cons_cons, hwrite]; rfl⟩
    have hlength : (a :: r).length ≤
        (commaSeparated ((a :: r).map write) ++ close :: t).length := by
      have hle := length_le_commaSeparated ((a :: r).map write) fun p hp => by
        obtain ⟨b, hb, rfl⟩ := List.mem_map.1 hp
        obtain ⟨c, s, hw, -⟩ := hhead b hb
        rw [hw]
        exact List.cons_ne_nil c s
      rw [List.length_map] at hle
      rw [List.length_append]
      omega
    obtain ⟨u, hu⟩ := hcons
    have hitems := items?_commaSeparated (t := t) hclose hitem (List.cons_ne_nil a r) hlength
    rw [hu] at hitems ⊢
    rw [sequence?, skipBlanks_cons hblank]
    simp only [if_neg hne]
    exact hitems

end Sequence

theorem stringChars_eq_cons (s : String) :
    stringChars s = '"' :: (s.toList.flatMap escaped ++ ['"']) := rfl

theorem member?_memberChars {α : Type} {value : List Char → Option (α × List Char)} {name : String}
    {cs t : List Char} {a : α} (h : value (cs ++ t) = some (a, t)) :
    member? value (memberChars name cs ++ t) = some ((name, a), t) := by
  have hname : skipBlanks (memberChars name cs ++ t) = stringChars name ++ ':' :: (cs ++ t) := by
    rw [memberChars, List.append_assoc, List.cons_append, stringChars_eq_cons, List.cons_append,
      skipBlanks_cons rfl]
  rw [member?, hname, quoted?_stringChars]
  simp only [Option.bind_eq_bind, Option.bind_some, skipBlanks_cons (show isBlank ':' = false
    from rfl), h]
  rfl

namespace Value

/-! ## Scalars -/

def BeginsScalar (c : Char) : Prop :=
  isBlank c = false ∧ c ≠ '[' ∧ c ≠ '\x7b'

theorem within?_of_beginsScalar {c : Char} (h : BeginsScalar c) (d : Nat) (s : List Char) :
    within? d (c :: s) = scalar? (c :: s) := by
  obtain ⟨hblank, hitems, hmembers⟩ := h
  cases d with
  | zero => rw [within?, skipBlanks_cons hblank]
  | succ d =>
    rw [within?, skipBlanks_cons hblank]
    split
    · next heq => exact absurd (List.cons.inj heq).1 hitems
    · next heq => exact absurd (List.cons.inj heq).1 hmembers
    · rfl

theorem beginsNumber_of_read? {s : List Char} {r : Number × List Char}
    (h : Number.read? s = some r) : ∃ c u, s = c :: u ∧ (c = '-' ∨ c.isDigit = true) := by
  cases s with
  | nil => cases h
  | cons c u =>
    refine ⟨c, u, rfl, ?_⟩
    by_cases hminus : c = '-'
    · exact .inl hminus
    by_cases hdigit : c.isDigit = true
    · exact .inr hdigit
    have hzero : c ≠ '0' := by
      rintro rfl
      exact hdigit rfl
    have hwhole : Number.whole? (c :: u) = none := by
      rw [Number.whole?_of_ne hzero, Number.digits?, Number.splitDigits,
        List.span_eq_takeWhile_dropWhile, List.takeWhile_cons, if_neg hdigit]
    simp only [Number.read?, Number.literal?_of_ne hminus, Number.unsigned?, hwhole,
      Option.bind_eq_bind, Option.bind_none] at h
    cases h

theorem scalar?_number {c : Char} (h : c = '-' ∨ c.isDigit = true) (s : List Char) :
    scalar? (c :: s) = (Number.read? (c :: s)).map fun r => (.number r.1, r.2) := by
  have hne {d : Char} (hd : d ≠ '-') (hdigit : d.isDigit = false) : c ≠ d := by
    rintro rfl
    rcases h with h | h
    · exact hd h
    · rw [hdigit] at h
      cases h
  rw [scalar?]
  · cases Number.read? (c :: s) <;> rfl
  · intro s' heq
    exact hne (by decide) (by decide) (List.cons.inj heq).1
  · intro s' heq
    exact hne (by decide) (by decide) (List.cons.inj heq).1
  · intro s' heq
    exact hne (by decide) (by decide) (List.cons.inj heq).1
  · intro s' heq
    exact hne (by decide) (by decide) (List.cons.inj heq).1

theorem beginsScalar_of_number {c : Char} (h : c = '-' ∨ c.isDigit = true) : BeginsScalar c := by
  rcases h with rfl | h
  · exact ⟨by decide, by decide, by decide⟩
  · refine ⟨?_, ?_, ?_⟩
    · rw [Bool.eq_false_iff]
      intro hblank
      simp only [isBlank, Bool.or_eq_true, beq_iff_eq] at hblank
      rcases hblank with ((rfl | rfl) | rfl) | rfl <;> cases h
    · rintro rfl
      cases h
    · rintro rfl
      cases h

theorem within?_scalar {v : Value} (hv : v.depth = 0) (d : Nat) {t : List Char} (ht : Closes t) :
    within? d (v.chars ++ t) = some (v.reread, t) := by
  have hbegins {c : Char} (hc : c = 'n' ∨ c = 't' ∨ c = 'f' ∨ c = '"') : BeginsScalar c := by
    rcases hc with rfl | rfl | rfl | rfl <;> exact ⟨by decide, by decide, by decide⟩
  cases v with
  | null => exact within?_of_beginsScalar (hbegins (.inl rfl)) d _
  | bool b =>
    cases b with
    | true => exact within?_of_beginsScalar (hbegins (.inr (.inl rfl))) d _
    | false => exact within?_of_beginsScalar (hbegins (.inr (.inr (.inl rfl)))) d _
  | string s =>
    have hread := quoted?_stringChars s t
    rw [stringChars_eq_cons, List.cons_append] at hread
    rw [chars, stringChars_eq_cons, List.cons_append,
      within?_of_beginsScalar (hbegins (.inr (.inr (.inr rfl)))), scalar?, hread]
    rfl
  | number n =>
    have hread := Number.read?_append ht n.read?_chars
    obtain ⟨c, u, hchars, hc⟩ := beginsNumber_of_read? n.read?_chars
    rw [chars]
    rw [hchars, List.nil_append, List.cons_append] at hread
    rw [hchars, List.cons_append, within?_of_beginsScalar (beginsScalar_of_number hc),
      scalar?_number hc, hread]
    rfl
  | array items => cases hv
  | object ms => cases hv

/-! ## Arrays and objects -/

theorem itemsChars_eq_map (items : List Value) : itemsChars items = items.map chars := by
  induction items with
  | nil => rfl
  | cons v r ih => rw [itemsChars, ih, List.map_cons]

theorem membersChars_eq_map (ms : Members) :
    membersChars ms = ms.map fun m => memberChars m.1 (chars m.2) := by
  induction ms with
  | nil => rfl
  | cons m r ih => rw [membersChars, ih, List.map_cons]

theorem exists_chars_eq_cons (v : Value) :
    ∃ c r, v.chars = c :: r ∧ isBlank c = false ∧ c ≠ ']' := by
  cases v with
  | null => exact ⟨_, _, rfl, rfl, by decide⟩
  | bool b => cases b <;> exact ⟨_, _, rfl, rfl, by decide⟩
  | string s => exact ⟨_, _, stringChars_eq_cons s, rfl, by decide⟩
  | array items => exact ⟨_, _, rfl, rfl, by decide⟩
  | object ms => exact ⟨_, _, rfl, rfl, by decide⟩
  | number n =>
    obtain ⟨c, u, hchars, hc⟩ := beginsNumber_of_read? n.read?_chars
    refine ⟨c, u, hchars, (beginsScalar_of_number hc).1, ?_⟩
    rintro rfl
    rcases hc with hc | hc <;> cases hc

theorem octets_eq (v : Value) : v.octets = v.chars.flatMap String.utf8EncodeChar :=
  Octets.ofText_ofList v.chars

theorem octets_ne_nil (v : Value) : v.octets ≠ [] := by
  obtain ⟨c, r, hchars, -⟩ := v.exists_chars_eq_cons
  rw [octets_eq, hchars, List.flatMap_cons]
  intro hnil
  have hlength := congrArg List.length (List.append_eq_nil_iff.1 hnil).1
  rw [String.length_utf8EncodeChar, List.length_nil] at hlength
  exact absurd hlength (Nat.ne_of_gt c.utf8Size_pos)

theorem within?_chars {v : Value} {d : Nat} (h : v.depth ≤ d) {t : List Char} (ht : Closes t) :
    within? d (v.chars ++ t) = some (v.reread, t) := by
  induction v using induct generalizing d t with
  | scalar v hv => exact within?_scalar hv d ht
  | array items ih =>
    cases d with
    | zero => exact absurd h (Nat.not_succ_le_zero _)
    | succ d =>
      rw [depth_array_le_iff] at h
      have hitems : sequence? (within? d) ']' (commaSeparated (items.map chars) ++ ']' :: t) =
          some (items.map reread, t) :=
        sequence?_commaSeparated (.inl rfl) (fun v hv s hs => ih v hv (h v hv) hs)
          fun v _ => v.exists_chars_eq_cons
      rw [chars, arrayChars, itemsChars_eq_map, List.append_assoc, List.singleton_append,
        List.cons_append, within?, skipBlanks_cons rfl, reread, rereadItems_eq_map]
      simp only [hitems, Option.bind_eq_bind, Option.bind_some]
      rfl
  | object ms ih =>
    cases d with
    | zero => exact absurd h (Nat.not_succ_le_zero _)
    | succ d =>
      rw [depth_object_le_iff] at h
      have hmembers : sequence? (member? (within? d)) '\x7d' (commaSeparated
          (ms.map fun m => memberChars m.1 (chars m.2)) ++ '\x7d' :: t) =
            some (ms.map fun m => (m.1, reread m.2), t) :=
        sequence?_commaSeparated (.inr rfl)
          (fun m hm s hs => member?_memberChars (ih m hm (h m hm) hs))
          fun m _ => ⟨_, _, rfl, rfl, by decide⟩
      rw [chars, objectChars, membersChars_eq_map, List.append_assoc, List.singleton_append,
        List.cons_append, within?, skipBlanks_cons rfl, reread, rereadMembers_eq_map]
      simp only [hmembers, Option.bind_eq_bind, Option.bind_some]
      rfl

/-! ## Whole texts -/

section Whole
variable {v : Value} (h : v.depth ≤ depthLimit)
include h

theorem read?_text : read? v.text = some v.reread := by
  have hread := within?_chars h closes_nil
  rw [List.append_nil] at hread
  rw [read?, text, String.toList_ofList, hread]
  rfl

theorem readOctets?_octets : readOctets? v.octets = some v.reread := by
  rw [readOctets?, octets, Octets.text?_ofText, Option.bind_some, read?_text h]

theorem parseOctets?_octets : parseOctets? v.octets = some v.reread.sorted := by
  rw [parseOctets?, octets, Octets.text?_ofText, Option.bind_some, parse?, read?_text h,
    Option.map_some]

end Whole

/-! ## Values that read as themselves -/

/-- A value is read back: it has at most so many arrays and objects around each of its parts, and
its numbers are read back from their own text. -/
structure Readable (d : Nat) (v : Value) : Prop where
  depth : v.depth ≤ d
  numbers : v.NumbersReadBack

theorem Readable.mono {d e : Nat} {v : Value} (h : Readable d v) (hde : d ≤ e) : Readable e v :=
  ⟨Nat.le_trans h.depth hde, h.numbers⟩

theorem readable_string (d : Nat) (s : String) : Readable d (.string s) :=
  ⟨Nat.zero_le d, trivial⟩

theorem readable_array_iff {d : Nat} {items : List Value} :
    Readable (d + 1) (.array items) ↔ ∀ v ∈ items, Readable d v := by
  constructor
  · intro h v hv
    exact ⟨depth_array_le_iff.1 h.depth v hv, itemsReadBack_iff.1 h.numbers v hv⟩
  · intro h
    exact ⟨depth_array_le_iff.2 fun v hv => (h v hv).depth,
      itemsReadBack_iff.2 fun v hv => (h v hv).numbers⟩

theorem readable_object_iff {d : Nat} {ms : Members} :
    Readable (d + 1) (.object ms) ↔ ∀ m ∈ ms, Readable d m.2 := by
  constructor
  · intro h m hm
    exact ⟨depth_object_le_iff.1 h.depth m hm, membersReadBack_iff.1 h.numbers m hm⟩
  · intro h
    exact ⟨depth_object_le_iff.2 fun m hm => (h m hm).depth,
      membersReadBack_iff.2 fun m hm => (h m hm).numbers⟩

theorem Readable.readOctets? {v : Value} (h : Readable depthLimit v) :
    Value.readOctets? v.octets = some v := by
  rw [readOctets?_octets h.depth, reread_eq_self h.numbers]

end Value

end SelectiveDisclosure.Json
