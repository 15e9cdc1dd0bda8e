import SelectiveDisclosure.Token.Compact

/-!
# Framing of compact forms

A compact form is taken apart into the octets between its points or tildes, and these are put
together again without loss. No part contains the octet that ends it.
-/

set_option autoImplicit false

namespace SelectiveDisclosure

theorem takeWhile_ne_append {a : UInt8} {xs : Octets} (h : a ∉ xs) (ys : Octets) :
    (xs ++ a :: ys).takeWhile (· != a) = xs := by
  rw [List.takeWhile_append_of_pos]
  · simp
  · intro b hb
    rw [bne_iff_ne]
    rintro rfl
    exact h hb

theorem reverse_takeWhile_ne_append {a : UInt8} {ys : Octets} (h : a ∉ ys) (xs : Octets) :
    ((xs ++ a :: ys).reverse.takeWhile (· != a)).reverse = ys := by
  have hr : (xs ++ a :: ys).reverse = ys.reverse ++ a :: xs.reverse := by simp
  rw [hr, takeWhile_ne_append (by simpa using h), List.reverse_reverse]

theorem exists_append_of_mem {a : UInt8} {xs : Octets} (h : a ∈ xs) :
    ∃ ys zs, xs = ys ++ a :: zs ∧ a ∉ zs := by
  induction xs with
  | nil => cases h
  | cons b r ih =>
    by_cases hr : a ∈ r
    · obtain ⟨ys, zs, rfl, hz⟩ := ih hr
      exact ⟨b :: ys, zs, rfl, hz⟩
    · rcases List.mem_cons.1 h with rfl | hm
      · exact ⟨[], r, rfl, hr⟩
      · exact absurd hm hr

namespace Base64Url

theorem isText_cons {b : UInt8} {r : Octets} :
    isText (b :: r) = true ↔ isSymbol b = true ∧ isText r = true := by
  simp [isText]

theorem notMem_of_isText {b : UInt8} (hb : isSymbol b = false) {bs : Octets}
    (h : isText bs = true) : b ∉ bs := by
  intro hm
  have hs := List.all_eq_true.1 h b hm
  rw [hb] at hs
  cases hs

end Base64Url

open Base64Url

/-! ## Three segments -/

namespace Jws

theorem not_isSymbol_point : isSymbol point = false := by decide

theorem not_isSymbol_tilde : isSymbol tilde = false := by decide

theorem scan_of_two_lt {points : Nat} (h : 2 < points) (segment : Nat) (bs : Octets) :
    scan points segment bs = false := by
  induction bs generalizing points segment with
  | nil =>
    have hne : points ≠ 2 := by omega
    simp [scan, hne]
  | cons b r ih =>
    have hz : ¬(points = 0 ∧ segment = 0) := by omega
    rw [scan, if_neg hz, ih (by omega), ih h]
    split
    · rfl
    · split <;> rfl

theorem scan_two_iff {segment : Nat} {bs : Octets} :
    scan 2 segment bs = true ↔ isText bs = true ∧ (segment ≠ 0 ∨ bs ≠ []) := by
  induction bs generalizing segment with
  | nil => simp [scan, isText]
  | cons b r ih =>
    rw [scan, isText_cons]
    by_cases hb : b = point
    · subst hb
      simp [scan_of_two_lt, not_isSymbol_point]
    · rw [if_neg hb]
      by_cases hs : isSymbol b = true
      · rw [if_pos hs, ih]
        simp [hs]
      · simp [hs]

/-- What follows the last point but `left` is scanned as a segment of symbols, a point, and what
remains. -/
theorem scan_iff {points : Nat} (hp : points < 2) {segment : Nat} {bs : Octets} :
    scan points segment bs = true ↔ ∃ s r, bs = s ++ point :: r ∧ isText s = true ∧
      ¬(points = 0 ∧ segment = 0 ∧ s = []) ∧ scan (points + 1) 0 r = true := by
  induction bs generalizing segment with
  | nil =>
    have hne : points ≠ 2 := by omega
    simp [scan, hne]
  | cons b r ih =>
    rw [scan]
    by_cases hb : b = point
    · subst hb
      rw [if_pos rfl]
      constructor
      · intro h
        by_cases hz : points = 0 ∧ segment = 0
        · rw [if_pos hz] at h
          cases h
        · rw [if_neg hz] at h
          exact ⟨[], r, rfl, rfl, fun h => hz ⟨h.1, h.2.1⟩, h⟩
      · rintro ⟨s, r', heq, hs, hne, h⟩
        cases s with
        | nil =>
          cases heq
          rw [if_neg fun hz => hne ⟨hz.1, hz.2, rfl⟩]
          exact h
        | cons c s =>
          cases heq
          rw [isText_cons, not_isSymbol_point] at hs
          cases hs.1
    · rw [if_neg hb]
      by_cases hsym : isSymbol b = true
      · rw [if_pos hsym, ih]
        constructor
        · rintro ⟨s, r', rfl, hs, -, h⟩
          exact ⟨b :: s, r', rfl, isText_cons.2 ⟨hsym, hs⟩, by simp, h⟩
        · rintro ⟨s, r', heq, hs, -, h⟩
          cases s with
          | nil => exact absurd (List.cons.inj heq).1 hb
          | cons c s =>
            cases heq
            exact ⟨s, r', rfl, (isText_cons.1 hs).2, by simp, h⟩
      · rw [if_neg hsym]
        constructor
        · intro h
          cases h
        · rintro ⟨s, r', heq, hs, -, h⟩
          cases s with
          | nil => exact absurd (List.cons.inj heq).1 hb
          | cons c s =>
            cases heq
            exact absurd (isText_cons.1 hs).1 hsym

/-- Header, payload and signature in symbols, of which only the payload may be empty. -/
structure Segments (bs header payload signature : Octets) : Prop where
  octets : bs = header ++ point :: (payload ++ point :: signature)
  isText_header : isText header = true
  isText_payload : isText payload = true
  isText_signature : isText signature = true
  header_ne_nil : header ≠ []
  signature_ne_nil : signature ≠ []

theorem isCompact_iff {bs : Octets} :
    isCompact bs = true ↔ ∃ h p s, Segments bs h p s := by
  have hrange : isCompact bs = scan 0 0 bs := by
    simp [isCompact, isCompactRange]
  rw [hrange, scan_iff (by omega)]
  constructor
  · rintro ⟨h, r, rfl, hh, hne, hr⟩
    obtain ⟨p, s, rfl, hp, -, hs⟩ := (scan_iff (by omega)).1 hr
    obtain ⟨hs, hsne⟩ := scan_two_iff.1 hs
    exact ⟨h, p, s, rfl, hh, hp, hs, fun hnil => hne ⟨rfl, rfl, hnil⟩, by simpa using hsne⟩
  · rintro ⟨h, p, s, hseg⟩
    refine ⟨h, _, hseg.octets, hseg.isText_header, fun hz => hseg.header_ne_nil hz.2.2, ?_⟩
    refine (scan_iff (by omega)).2 ⟨p, s, rfl, hseg.isText_payload, by omega, ?_⟩
    exact scan_two_iff.2 ⟨hseg.isText_signature, .inr hseg.signature_ne_nil⟩

theorem Segments.notMem {bs h p s : Octets} (hseg : Segments bs h p s) {b : UInt8}
    (hb : isSymbol b = false) (hne : b ≠ point) : b ∉ bs := by
  rw [hseg.octets]
  simp [notMem_of_isText hb hseg.isText_header, notMem_of_isText hb hseg.isText_payload,
    notMem_of_isText hb hseg.isText_signature, hne]

theorem parts_of_segments {j : Jws} {h p s : Octets} (hseg : Segments j.octets h p s) :
    j.header = h ∧ j.payload = p ∧ j.signature = s ∧ j.signingOctets = h ++ point :: p := by
  have hoctets : j.octets = (h ++ point :: p) ++ point :: s := by
    rw [hseg.octets]
    simp
  have hheader : j.header = h := by
    rw [header, hseg.octets,
      takeWhile_ne_append (notMem_of_isText not_isSymbol_point hseg.isText_header)]
  have hsignature : j.signature = s := by
    rw [signature, hoctets,
      reverse_takeWhile_ne_append (notMem_of_isText not_isSymbol_point hseg.isText_signature)]
  have hsigning : j.signingOctets = h ++ point :: p := by
    have hlen : j.octets.length - j.signature.length - 1 = (h ++ point :: p).length := by
      rw [hsignature, hoctets]
      simp only [List.length_append, List.length_cons]
      omega
    rw [signingOctets, hlen, hoctets, List.take_left]
  refine ⟨hheader, ?_, hsignature, hsigning⟩
  rw [payload, hsigning, hheader]
  simp

theorem segments (j : Jws) : Segments j.octets j.header j.payload j.signature := by
  obtain ⟨h, p, s, hseg⟩ := isCompact_iff.1 j.valid
  obtain ⟨rfl, rfl, rfl, -⟩ := parts_of_segments hseg
  exact hseg

theorem octets_eq (j : Jws) : j.octets = j.signingOctets ++ point :: j.signature := by
  rw [(parts_of_segments j.segments).2.2.2, j.segments.octets]
  simp

theorem tilde_notMem (j : Jws) : tilde ∉ j.octets :=
  j.segments.notMem not_isSymbol_tilde (by decide)

theorem octets_ne_nil (j : Jws) : j.octets ≠ [] := by
  rw [j.segments.octets]
  simp

end Jws

/-! ## Disclosures with their tildes -/

namespace Token

theorem isEncoded_iff {s : Octets} :
    Disclosure.isEncoded s = true ↔ s ≠ [] ∧ isText s = true := by
  cases s <;> simp [Disclosure.isEncoded]

theorem tilde_notMem_of_isEncoded {s : Octets} (h : Disclosure.isEncoded s = true) : tilde ∉ s :=
  notMem_of_isText Jws.not_isSymbol_tilde (isEncoded_iff.1 h).2

theorem withTildes_cons (s : Octets) (ss : List Octets) :
    Parts.withTildes (s :: ss) = s ++ tilde :: Parts.withTildes ss := by
  simp [Parts.withTildes]

theorem areDisclosures_iff {segment : Nat} {bs : Octets} :
    areDisclosures segment bs = true ↔ segment = 0 ∧ bs = [] ∨
      ∃ s r, bs = s ++ tilde :: r ∧ isText s = true ∧ ¬(segment = 0 ∧ s = []) ∧
        areDisclosures 0 r = true := by
  induction bs generalizing segment with
  | nil => simp [areDisclosures]
  | cons b r ih =>
    rw [areDisclosures]
    by_cases hb : b = tilde
    · subst hb
      rw [if_pos rfl, Bool.and_eq_true, bne_iff_ne]
      constructor
      · rintro ⟨hz, h⟩
        exact .inr ⟨[], r, rfl, rfl, fun h => hz h.1, h⟩
      · rintro (⟨-, h⟩ | ⟨s, r', heq, hs, hne, h⟩)
        · cases h
        · cases s with
          | nil =>
            cases heq
            exact ⟨fun hz => hne ⟨hz, rfl⟩, h⟩
          | cons c s =>
            cases heq
            rw [isText_cons, Jws.not_isSymbol_tilde] at hs
            cases hs.1
    · rw [if_neg hb, Bool.and_eq_true, ih]
      constructor
      · rintro ⟨hsym, ⟨h, -⟩ | ⟨s, r', rfl, hs, -, h⟩⟩
        · cases h
        · exact .inr ⟨b :: s, r', rfl, isText_cons.2 ⟨hsym, hs⟩, by simp, h⟩
      · rintro (⟨-, h⟩ | ⟨s, r', heq, hs, -, h⟩)
        · cases h
        · cases s with
          | nil => exact absurd (List.cons.inj heq).1 hb
          | cons c s =>
            cases heq
            obtain ⟨hc, hs⟩ := isText_cons.1 hs
            exact ⟨hc, .inr ⟨s, r', rfl, hs, by simp, h⟩⟩

theorem areDisclosures_zero_iff {bs : Octets} :
    areDisclosures 0 bs = true ↔ ∃ ss : List Octets, bs = Parts.withTildes ss ∧
      ∀ s ∈ ss, Disclosure.isEncoded s = true := by
  constructor
  · intro h
    induction hn : bs.length using Nat.strongRecOn generalizing bs with
    | ind n ih =>
      rcases areDisclosures_iff.1 h with ⟨-, rfl⟩ | ⟨s, r, rfl, hs, hne, hr⟩
      · exact ⟨[], rfl, fun s hs => nomatch hs⟩
      · obtain ⟨ss, rfl, hss⟩ := ih r.length (by simp at hn; omega) hr rfl
        refine ⟨s :: ss, (withTildes_cons s ss).symm, List.forall_mem_cons.2 ⟨?_, hss⟩⟩
        exact isEncoded_iff.2 ⟨fun hnil => hne ⟨rfl, hnil⟩, hs⟩
  · rintro ⟨ss, rfl, hss⟩
    induction ss with
    | nil => rfl
    | cons s r ih =>
      obtain ⟨hs, hr⟩ := List.forall_mem_cons.1 hss
      obtain ⟨hne, htext⟩ := isEncoded_iff.1 hs
      exact areDisclosures_iff.2 (.inr ⟨s, _, withTildes_cons s r, htext, fun h => hne h.2, ih hr⟩)

theorem terminated_append {s : Octets} (h : tilde ∉ s) (r : Octets) :
    terminated (s ++ tilde :: r) = s :: terminated r := by
  induction s with
  | nil => simp [terminated]
  | cons b s ih =>
    have hb : b ≠ tilde := fun heq => h (heq ▸ List.mem_cons_self)
    rw [List.cons_append, terminated, if_neg hb, ih fun hm => h (List.mem_cons_of_mem _ hm)]

theorem terminated_withTildes {ss : List Octets} (h : ∀ s ∈ ss, Disclosure.isEncoded s = true) :
    terminated (Parts.withTildes ss) = ss := by
  induction ss with
  | nil => rfl
  | cons s r ih =>
    obtain ⟨hs, hr⟩ := List.forall_mem_cons.1 h
    rw [withTildes_cons, terminated_append (tilde_notMem_of_isEncoded hs), ih hr]

theorem isCompact_iff {bs : Octets} :
    isCompact bs = true ↔ ∃ (jwt : Jws) (ss : List Octets), bs = Parts.octets ⟨jwt, ss, none⟩ ∧
      ∀ s ∈ ss, Disclosure.isEncoded s = true := by
  simp only [Parts.octets, List.append_nil]
  constructor
  · intro h
    simp only [isCompact, Bool.and_eq_true, List.contains_iff_mem] at h
    obtain ⟨⟨hmem, hjwt⟩, hds⟩ := h
    obtain ⟨ss, hss, hall⟩ := areDisclosures_zero_iff.1 hds
    refine ⟨⟨head bs, hjwt⟩, ss, ?_, hall⟩
    have hsplit : bs = head bs ++ tilde :: bs.drop ((head bs).length + 1) := by
      obtain ⟨ys, zs, rfl, hy⟩ := List.eq_append_cons_of_mem hmem
      rw [head, takeWhile_ne_append hy]
      simp
    rw [← hss]
    exact hsplit
  · rintro ⟨jwt, ss, rfl, hall⟩
    have hhead : head (jwt.octets ++ tilde :: Parts.withTildes ss) = jwt.octets :=
      takeWhile_ne_append jwt.tilde_notMem _
    simp only [isCompact, hhead, Bool.and_eq_true, List.contains_iff_mem]
    refine ⟨⟨by simp, jwt.valid⟩, ?_⟩
    have hdrop : (jwt.octets ++ tilde :: Parts.withTildes ss).drop (jwt.octets.length + 1) =
        Parts.withTildes ss := by simp
    rw [hdrop]
    exact areDisclosures_zero_iff.2 ⟨ss, rfl, hall⟩

theorem parts_of_octets {t : Token} {jwt : Jws} {ss : List Octets}
    (h : t.octets = Parts.octets ⟨jwt, ss, none⟩)
    (hss : ∀ s ∈ ss, Disclosure.isEncoded s = true) : t.parts = ⟨jwt, ss, none⟩ := by
  simp only [Parts.octets, List.append_nil] at h
  have hhead : head t.octets = jwt.octets := by
    rw [h]
    exact takeWhile_ne_append jwt.tilde_notMem _
  have hjwt : t.jwt = jwt := by
    obtain ⟨bs, hbs⟩ := jwt
    exact (Jws.mk.injEq ..).mpr hhead
  have hds : t.disclosures = ss := by
    rw [disclosures, hhead, h]
    have hdrop : (jwt.octets ++ tilde :: Parts.withTildes ss).drop (jwt.octets.length + 1) =
        Parts.withTildes ss := by simp
    rw [hdrop, terminated_withTildes hss]
  rw [parts, hjwt, hds]

theorem octets_parts (t : Token) :
    t.parts.octets = t.octets ∧ ∀ s ∈ t.disclosures, Disclosure.isEncoded s = true := by
  obtain ⟨jwt, ss, h, hss⟩ := isCompact_iff.1 t.valid
  have hparts := parts_of_octets h hss
  have hds : t.disclosures = ss := congrArg Parts.disclosures hparts
  exact ⟨by rw [hparts, h], hds ▸ hss⟩

theorem exists_ofOctets? (jwt : Jws) {ss : List Octets}
    (hss : ∀ s ∈ ss, Disclosure.isEncoded s = true) :
    ∃ t, ofOctets? (Parts.octets ⟨jwt, ss, none⟩) = some t ∧ t.parts = ⟨jwt, ss, none⟩ := by
  have hc : isCompact (Parts.octets ⟨jwt, ss, none⟩) = true :=
    isCompact_iff.2 ⟨jwt, ss, rfl, hss⟩
  exact ⟨⟨_, hc⟩, by rw [ofOctets?, dif_pos hc], parts_of_octets rfl hss⟩

theorem octets_of_ofOctets? {bs : Octets} {t : Token} (h : ofOctets? bs = some t) :
    t.octets = bs := by
  rw [ofOctets?, Option.dite_none_right_eq_some] at h
  obtain ⟨hc, h⟩ := h
  cases h
  rfl

end Token

/-! ## Presentations -/

namespace Presentation

theorem tail_append {ys : Octets} (h : tilde ∉ ys) (xs : Octets) :
    tail (xs ++ tilde :: ys) = ys :=
  reverse_takeWhile_ne_append h xs

theorem front_append {ys : Octets} (h : tilde ∉ ys) (xs : Octets) :
    front (xs ++ tilde :: ys) = xs ++ [tilde] := by
  rw [front, tail_append h]
  have hlen : (xs ++ tilde :: ys).length - ys.length = (xs ++ [tilde]).length := by
    simp only [List.length_append, List.length_cons, List.length_nil]
    omega
  have hsplit : xs ++ tilde :: ys = (xs ++ [tilde]) ++ ys := by simp
  rw [hlen, hsplit, List.take_left]

theorem front_append_tail {bs : Octets} (h : tilde ∈ bs) : front bs ++ tail bs = bs := by
  obtain ⟨xs, ys, rfl, hy⟩ := exists_append_of_mem h
  rw [front_append hy, tail_append hy]
  simp

def bindingOctets : Option Jws → Octets
  | some jwt => jwt.octets
  | none => []

theorem tilde_notMem_bindingOctets (kb : Option Jws) : tilde ∉ bindingOctets kb := by
  cases kb with
  | none => exact List.not_mem_nil
  | some jwt => exact jwt.tilde_notMem

theorem octets_eq (parts : Parts) : parts.octets =
    Parts.octets { parts with keyBinding := none } ++ bindingOctets parts.keyBinding := by
  obtain ⟨jwt, ss, kb⟩ := parts
  cases kb <;> simp [Parts.octets, bindingOctets]

theorem tail_eq (p : Presentation) : tail p.octets = bindingOctets p.keyBinding := by
  unfold keyBinding
  by_cases h : tail p.octets = [] <;> simp [h, bindingOctets]

theorem tilde_mem (p : Presentation) : tilde ∈ p.octets := by
  have hv := p.valid
  simp only [isCompact, Bool.and_eq_true, List.contains_iff_mem] at hv
  exact hv.1.1

theorem octets_parts (p : Presentation) :
    p.parts.octets = p.octets ∧
      p.token.octets = Parts.octets { p.parts with keyBinding := none } ∧
      ∀ s ∈ p.parts.disclosures, Disclosure.isEncoded s = true := by
  obtain ⟨htoken, hds⟩ := p.token.octets_parts
  refine ⟨?_, htoken.symm, hds⟩
  have hfront : front p.octets = p.token.parts.octets := htoken.symm
  rw [octets_eq, ← front_append_tail p.tilde_mem, tail_eq, hfront]
  rfl

theorem exists_append_tilde (jwt : Jws) (ss : List Octets) :
    ∃ xs, Parts.octets ⟨jwt, ss, none⟩ = xs ++ [tilde] := by
  cases hrev : ss.reverse with
  | nil =>
    rw [List.reverse_eq_nil_iff] at hrev
    exact ⟨jwt.octets, by simp [Parts.octets, Parts.withTildes, hrev]⟩
  | cons s r =>
    rw [List.reverse_eq_cons_iff] at hrev
    exact ⟨jwt.octets ++ tilde :: Parts.withTildes r.reverse ++ s, by
      simp [Parts.octets, Parts.withTildes, hrev]⟩

theorem front_tail_octets (jwt : Jws) (ss : List Octets) (kb : Option Jws) :
    front (Parts.octets ⟨jwt, ss, kb⟩) = Parts.octets ⟨jwt, ss, none⟩ ∧
      tail (Parts.octets ⟨jwt, ss, kb⟩) = bindingOctets kb := by
  obtain ⟨xs, hxs⟩ := exists_append_tilde jwt ss
  have hoctets : Parts.octets ⟨jwt, ss, kb⟩ = xs ++ tilde :: bindingOctets kb := by
    rw [octets_eq, hxs]
    simp
  rw [hoctets, front_append (tilde_notMem_bindingOctets kb),
    tail_append (tilde_notMem_bindingOctets kb), hxs]
  exact ⟨rfl, rfl⟩

theorem octets_of_ofOctets? {bs : Octets} {p : Presentation} (h : ofOctets? bs = some p) :
    p.octets = bs := by
  rw [ofOctets?, Option.dite_none_right_eq_some] at h
  obtain ⟨hc, h⟩ := h
  cases h
  rfl

theorem exists_ofOctets? (parts : Parts)
    (hss : ∀ s ∈ parts.disclosures, Disclosure.isEncoded s = true) :
    ∃ p, ofOctets? parts.octets = some p ∧ p.parts = parts := by
  obtain ⟨jwt, ss, kb⟩ := parts
  obtain ⟨hfront, htail⟩ := front_tail_octets jwt ss kb
  have hc : isCompact (Parts.octets ⟨jwt, ss, kb⟩) = true := by
    simp only [isCompact, hfront, htail, Bool.and_eq_true, Bool.or_eq_true,
      List.contains_iff_mem]
    refine ⟨⟨by simp [Parts.octets], Token.isCompact_iff.2 ⟨jwt, ss, rfl, hss⟩⟩, ?_⟩
    cases kb with
    | none => exact .inl rfl
    | some k => exact .inr k.valid
  refine ⟨⟨_, hc⟩, by rw [ofOctets?, dif_pos hc], ?_⟩
  have hbinding : keyBinding ⟨_, hc⟩ = kb := by
    unfold keyBinding
    cases kb with
    | none => exact dif_pos htail
    | some k =>
      have hne : tail (Parts.octets ⟨jwt, ss, some k⟩) ≠ [] := by
        rw [htail]
        exact k.octets_ne_nil
      rw [dif_neg hne]
      obtain ⟨bs, hbs⟩ := k
      exact congrArg some ((Jws.mk.injEq ..).mpr htail)
  rw [parts, Token.parts_of_octets hfront hss, hbinding]

end Presentation

end SelectiveDisclosure
