import SelectiveDisclosure.Pointer

/-!
# Pointers are lists of decoded tokens

Escaping a token and decoding it are inverse to each other, and the text of a pointer is its tokens
with a slash before each. So a pointer is the same thing as the list of its decoded tokens: pushing
a token appends to the list, and no two pointers have one list.
-/

set_option autoImplicit false

namespace SelectiveDisclosure.Pointer

/-! ## Escapes -/

/-- What is left of an escaped token once the slashes are back. -/
def tildesEscaped (s : List Char) : List Char :=
  s.flatMap fun c => if c = '~' then ['~', '0'] else [c]

theorem replaced_cons_of_ne (escape new : Char) {c : Char} (hc : c ≠ '~') (s : List Char) :
    Token.replaced escape new (c :: s) = c :: Token.replaced escape new s := by
  cases s with
  | nil => rfl
  | cons d r => simp [Token.replaced, hc]

theorem replaced_slash_escaped (s : List Char) :
    Token.replaced '1' '/' (escaped s) = tildesEscaped s := by
  induction s with
  | nil => rfl
  | cons c r ih =>
    by_cases ht : c = '~'
    · subst ht
      show Token.replaced '1' '/' ('~' :: '0' :: escaped r) = '~' :: '0' :: tildesEscaped r
      rw [Token.replaced, if_neg (by decide), replaced_cons_of_ne _ _ (by decide), ih]
    · by_cases hs : c = '/'
      · subst hs
        show Token.replaced '1' '/' ('~' :: '1' :: escaped r) = '/' :: tildesEscaped r
        rw [Token.replaced, if_pos ⟨rfl, rfl⟩, ih]
      · simp only [escaped, tildesEscaped, List.flatMap_cons, escapedChar, ht, hs, if_false,
          List.cons_append, List.nil_append] at ih ⊢
        rw [replaced_cons_of_ne _ _ ht, ih]

theorem replaced_tilde_tildesEscaped (s : List Char) :
    Token.replaced '0' '~' (tildesEscaped s) = s := by
  induction s with
  | nil => rfl
  | cons c r ih =>
    by_cases ht : c = '~'
    · subst ht
      show Token.replaced '0' '~' ('~' :: '0' :: tildesEscaped r) = '~' :: r
      rw [Token.replaced, if_pos ⟨rfl, rfl⟩, ih]
    · simp only [tildesEscaped, List.flatMap_cons, ht, if_false, List.cons_append,
        List.nil_append] at ih ⊢
      rw [replaced_cons_of_ne _ _ ht, ih]

theorem escaped_of_notMem {s : List Char} (h : '~' ∉ escaped s) : escaped s = s := by
  induction s with
  | nil => rfl
  | cons c r ih =>
    simp only [escaped, List.flatMap_cons, List.mem_append, not_or] at h ih ⊢
    have ht : c ≠ '~' := by rintro rfl; simp [escapedChar] at h
    have hs : c ≠ '/' := by rintro rfl; simp [escapedChar] at h
    rw [ih h.2]
    simp [escapedChar, ht, hs]

def Token.ofDecoded (s : String) : Token :=
  ⟨String.ofList (escaped s.toList)⟩

theorem Token.decode_ofDecoded (s : String) : (Token.ofDecoded s).decode = s := by
  simp [Token.decode, Token.ofDecoded, replaced_slash_escaped, replaced_tilde_tildesEscaped]

theorem Token.toDecoded_ofDecoded (s : String) : (Token.ofDecoded s).toDecoded = s := by
  unfold Token.toDecoded
  split
  · exact Token.decode_ofDecoded s
  · next h =>
    have h' : '~' ∉ escaped s.toList := by simpa [Token.ofDecoded] using h
    apply String.ext
    simpa [Token.ofDecoded] using escaped_of_notMem h'

theorem slash_notMem_escaped (s : List Char) : '/' ∉ escaped s := by
  induction s with
  | nil => simp [escaped]
  | cons c r ih =>
    simp only [escaped, List.flatMap_cons, List.mem_append, not_or] at ih ⊢
    refine ⟨?_, ih⟩
    unfold escapedChar
    by_cases ht : c = '~'
    · simp [ht]
    · by_cases hs : c = '/'
      · simp [hs]
      · simpa [ht, hs] using Ne.symm hs

/-- A token as it stands in a pointer is the escaped form of what it decodes to. -/
theorem escaped_replaced {t : List Char} (hc : escapesClosed t = true) (hs : '/' ∉ t) :
    escaped (Token.replaced '0' '~' (Token.replaced '1' '/' t)) = t := by
  fun_induction escapesClosed t with
  | case1 => rfl
  | case2 r ih =>
    have hr : '/' ∉ r := fun h => hs (by simp [h])
    have hone : Token.replaced '1' '/' ('~' :: '0' :: r) =
        '~' :: '0' :: Token.replaced '1' '/' r := by
      rw [Token.replaced, if_neg (by decide), replaced_cons_of_ne _ _ (by decide)]
    rw [hone, Token.replaced, if_pos ⟨rfl, rfl⟩]
    show '~' :: '0' :: escaped _ = _
    rw [ih hc hr]
  | case3 r ih =>
    have hr : '/' ∉ r := fun h => hs (by simp [h])
    rw [Token.replaced, if_pos ⟨rfl, rfl⟩, replaced_cons_of_ne _ _ (by decide)]
    show '~' :: '1' :: escaped _ = _
    rw [ih hc hr]
  | case4 c r h0 h1 ih =>
    have ht : c ≠ '~' := by
      rintro rfl
      simp at hc
    have hcs : c ≠ '/' := fun h => hs (by simp [h])
    have hr : '/' ∉ r := fun h => hs (by simp [h])
    have hrc : escapesClosed r = true := (Bool.and_eq_true_iff.1 hc).2
    rw [replaced_cons_of_ne _ _ ht, replaced_cons_of_ne _ _ ht]
    simp only [escaped, List.flatMap_cons, escapedChar, ht, hcs, if_false] at ih ⊢
    rw [ih hrc hr]
    rfl

/-! ## Tokens in a text -/

def Token.WellFormed (t : Token) : Prop :=
  escapesClosed t.raw.toList = true ∧ '/' ∉ t.raw.toList

theorem Token.wellFormed_ofDecoded (s : String) : (Token.ofDecoded s).WellFormed := by
  simp [Token.WellFormed, Token.ofDecoded, escapesClosed_escaped, slash_notMem_escaped]

theorem Token.ofDecoded_decode {t : Token} (h : t.WellFormed) : Token.ofDecoded t.decode = t := by
  obtain ⟨raw⟩ := t
  simp only [Token.ofDecoded, Token.decode, String.toList_ofList, escaped_replaced h.1 h.2,
    String.ofList_toList]

theorem Token.toDecoded_eq_decode {t : Token} (h : t.WellFormed) : t.toDecoded = t.decode := by
  rw [← Token.ofDecoded_decode h, Token.toDecoded_ofDecoded, Token.decode_ofDecoded]

theorem Token.ofDecoded_toDecoded {t : Token} (h : t.WellFormed) :
    Token.ofDecoded t.toDecoded = t := by
  rw [Token.toDecoded_eq_decode h, Token.ofDecoded_decode h]

def slashed (ts : List Token) : List Char :=
  ts.flatMap fun t => '/' :: t.raw.toList

theorem ne_slash_of_mem {r : List Char} (h : '/' ∉ r) : ∀ c ∈ r, (c != '/') = true := by
  intro c hc
  rw [bne_iff_ne]
  rintro rfl
  exact h hc

theorem takeWhile_append_slash {r : List Char} (h : '/' ∉ r) (s : List Char) :
    (r ++ '/' :: s).takeWhile (· != '/') = r := by
  rw [List.takeWhile_append_of_pos (ne_slash_of_mem h)]
  simp

theorem takeWhile_slashed {r : List Char} (h : '/' ∉ r) (ts : List Token) :
    (r ++ slashed ts).takeWhile (· != '/') = r := by
  rw [List.takeWhile_append_of_pos (ne_slash_of_mem h)]
  cases ts <;> simp [slashed]

theorem dropWhile_slashed {r : List Char} (h : '/' ∉ r) (ts : List Token) :
    (r ++ slashed ts).dropWhile (· != '/') = slashed ts := by
  rw [List.dropWhile_append_of_pos (ne_slash_of_mem h)]
  cases ts <;> simp [slashed]

theorem escapesClosed_takeWhile {s : List Char} (h : escapesClosed s = true) :
    escapesClosed (s.takeWhile (· != '/')) = true := by
  fun_induction escapesClosed s with
  | case1 => rfl
  | case2 r ih => simpa [escapesClosed] using ih h
  | case3 r ih => simpa [escapesClosed] using ih h
  | case4 c r h0 h1 ih =>
    rw [Bool.and_eq_true_iff, bne_iff_ne] at h
    rw [List.takeWhile_cons]
    split
    · exact escapesClosed_append (s := [c]) (by simp [escapesClosed, h.1]) (ih h.2)
    · rfl

theorem slash_notMem_takeWhile (s : List Char) : '/' ∉ s.takeWhile (· != '/') := by
  intro h
  have hall := List.all_takeWhile (p := (· != '/')) (l := s)
  rw [List.all_eq_true] at hall
  simpa using hall '/' h

theorem splitFirst?_eq_some {p : Pointer} {t : Token} {rest : Pointer}
    (h : p.splitFirst? = some (t, rest)) :
    p.text.toList = '/' :: t.raw.toList ++ rest.text.toList ∧ t.WellFormed := by
  unfold splitFirst? at h
  split at h
  · next r hr =>
    simp only [Option.some.injEq, Prod.mk.injEq] at h
    obtain ⟨rfl, rfl⟩ := h
    have hv := p.valid
    rw [hr] at hv
    refine ⟨by simp [hr, List.takeWhile_append_dropWhile], ?_, ?_⟩
    · rw [String.toList_ofList]
      exact escapesClosed_takeWhile (escapesClosed_tail hv)
    · rw [String.toList_ofList]
      exact slash_notMem_takeWhile r
  · simp at h

theorem splitFirst?_eq_none {p : Pointer} (h : p.splitFirst? = none) : p.text.toList = [] := by
  have hv := p.valid
  unfold splitFirst? at h
  split at h
  · simp at h
  · next hne =>
    cases ht : p.text.toList with
    | nil => rfl
    | cons c r =>
      simp only [ht, isPointer, Bool.and_eq_true, beq_iff_eq] at hv
      exact absurd (hv.1 ▸ ht) (hne r)

theorem tokensUpTo_spec (k : Nat) (p : Pointer) (hk : p.text.toList.length ≤ k) :
    slashed (tokensUpTo k p) = p.text.toList ∧ ∀ t ∈ tokensUpTo k p, t.WellFormed := by
  induction k generalizing p with
  | zero => simp [tokensUpTo, slashed, List.eq_nil_of_length_eq_zero (Nat.le_zero.1 hk)]
  | succ k ih =>
    rw [tokensUpTo]
    cases hs : p.splitFirst? with
    | none => simp [slashed, splitFirst?_eq_none hs]
    | some e =>
      obtain ⟨t, rest⟩ := e
      obtain ⟨htext, ht⟩ := splitFirst?_eq_some hs
      have hlen : rest.text.toList.length ≤ k := by
        rw [htext] at hk
        simp only [List.cons_append, List.length_cons, List.length_append] at hk
        omega
      obtain ⟨hrest, hall⟩ := ih rest hlen
      constructor
      · simp only [slashed, List.flatMap_cons] at hrest ⊢
        rw [hrest, htext]
      · simpa [ht] using hall

theorem slashed_tokens (p : Pointer) : slashed p.tokens = p.text.toList :=
  (tokensUpTo_spec _ p (Nat.le_refl _)).1

theorem wellFormed_of_mem_tokens {p : Pointer} {t : Token} (h : t ∈ p.tokens) : t.WellFormed :=
  (tokensUpTo_spec _ p (Nat.le_refl _)).2 t h

/-- Equal texts have equal tokens, since no token has a slash of its own. -/
theorem slashed_injective {ts us : List Token} (ht : ∀ t ∈ ts, t.WellFormed)
    (hu : ∀ t ∈ us, t.WellFormed) (h : slashed ts = slashed us) : ts = us := by
  induction ts generalizing us with
  | nil =>
    cases us with
    | nil => rfl
    | cons u us => simp [slashed] at h
  | cons t ts ih =>
    cases us with
    | nil => simp [slashed] at h
    | cons u us =>
      have h' : t.raw.toList ++ slashed ts = u.raw.toList ++ slashed us := by
        simpa [slashed] using h
      have hraw := congrArg (List.takeWhile (· != '/')) h'
      have hrest := congrArg (List.dropWhile (· != '/')) h'
      rw [takeWhile_slashed (ht t (by simp)).2, takeWhile_slashed (hu u (by simp)).2] at hraw
      rw [dropWhile_slashed (ht t (by simp)).2, dropWhile_slashed (hu u (by simp)).2] at hrest
      have hts := ih (fun t h => ht t (by simp [h])) (fun t h => hu t (by simp [h])) hrest
      obtain ⟨a⟩ := t
      obtain ⟨b⟩ := u
      rw [hts, show a = b from String.ext hraw]

theorem tokens_eq_of_slashed {p : Pointer} {ts : List Token} (ht : ∀ t ∈ ts, t.WellFormed)
    (h : slashed ts = p.text.toList) : p.tokens = ts :=
  slashed_injective (fun _ => wellFormed_of_mem_tokens) ht (by rw [slashed_tokens, h])

theorem tokens_push (p : Pointer) (s : String) :
    (p.push s).tokens = p.tokens ++ [Token.ofDecoded s] := by
  apply tokens_eq_of_slashed
  · intro t h
    rcases List.mem_append.1 h with h | h
    · exact wellFormed_of_mem_tokens h
    · rw [List.mem_singleton.1 h]
      exact Token.wellFormed_ofDecoded s
  · rw [slashed, List.flatMap_append]
    rw [show List.flatMap _ p.tokens = p.text.toList from slashed_tokens p]
    simp [push, Token.ofDecoded]

/-! ## Decoded tokens -/

theorem decoded_push (p : Pointer) (s : String) : (p.push s).decoded = p.decoded ++ [s] := by
  simp [decoded, tokens_push, Token.toDecoded_ofDecoded]

@[simp]
theorem decoded_root : root.decoded = [] := by
  rfl

def pushAll (p : Pointer) (path : List String) : Pointer :=
  path.foldl push p

@[simp]
theorem pushAll_nil (p : Pointer) : p.pushAll [] = p := rfl

@[simp]
theorem pushAll_cons (p : Pointer) (s : String) (path : List String) :
    p.pushAll (s :: path) = (p.push s).pushAll path := rfl

theorem decoded_pushAll (p : Pointer) (path : List String) :
    (p.pushAll path).decoded = p.decoded ++ path := by
  induction path generalizing p with
  | nil => simp
  | cons s r ih => rw [pushAll_cons, ih, decoded_push, List.append_assoc, List.singleton_append]

theorem map_ofDecoded_decoded (p : Pointer) : p.decoded.map Token.ofDecoded = p.tokens := by
  rw [decoded, List.map_map]
  have hid : p.tokens.map (Token.ofDecoded ∘ Token.toDecoded) = p.tokens.map id := by
    apply List.map_congr_left
    intro t ht
    exact Token.ofDecoded_toDecoded (wellFormed_of_mem_tokens ht)
  rw [hid, List.map_id]

theorem decoded_injective {p q : Pointer} (h : p.decoded = q.decoded) : p = q := by
  have ht : p.tokens = q.tokens := by rw [← map_ofDecoded_decoded p, h, map_ofDecoded_decoded]
  have htext : p.text = q.text := String.ext (by rw [← slashed_tokens, ht, slashed_tokens])
  obtain ⟨text, valid⟩ := p
  subst htext
  rfl

theorem pushAll_decoded (p : Pointer) : root.pushAll p.decoded = p :=
  decoded_injective (by rw [decoded_pushAll, decoded_root, List.nil_append])

theorem isRoot_iff {p : Pointer} : p.isRoot = true ↔ p.decoded = [] := by
  rw [isRoot, List.isEmpty_iff, ← slashed_tokens, decoded, List.map_eq_nil_iff]
  cases p.tokens <;> simp [slashed]

end SelectiveDisclosure.Pointer
