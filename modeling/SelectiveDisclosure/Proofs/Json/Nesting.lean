import SelectiveDisclosure.Proofs.Json.Text

/-!
# Nesting

A value that is read is no deeper than the limit allows, and it is read as well where the limit is
higher. So a value deeper than the limit is not read from its own text.
-/

set_option autoImplicit false

namespace SelectiveDisclosure.Json

/-! ## Sequences -/

section Sequence
variable {α : Type} {item item' : List Char → Option (α × List Char)} {P : α → Prop}
  {close : Char} {s t : List Char}

theorem items?_eq_some (h : ∀ s a t, item s = some (a, t) → P a ∧ item' s = some (a, t))
    {k : Nat} {as : List α} (hs : items? item close k s = some (as, t)) :
    (∀ a ∈ as, P a) ∧ items? item' close k s = some (as, t) := by
  induction k generalizing s as with
  | zero => cases hs
  | succ k ih =>
    simp only [items?, Option.bind_eq_bind, Option.bind_eq_some_iff] at hs
    obtain ⟨⟨a, s₁⟩, ha, hs⟩ := hs
    obtain ⟨hP, ha'⟩ := h s a s₁ ha
    simp only [items?, Option.bind_eq_bind, ha', Option.bind_some]
    cases hskip : skipBlanks s₁ with
    | nil =>
      rw [hskip] at hs
      cases hs
    | cons c s₂ =>
      simp only [hskip] at hs ⊢
      by_cases hcomma : c = ','
      · rw [if_pos hcomma, Option.bind_eq_some_iff] at hs
        obtain ⟨⟨as', s₃⟩, hrest, hs⟩ := hs
        cases hs
        obtain ⟨hall, hrest'⟩ := ih hrest
        rw [if_pos hcomma, hrest']
        exact ⟨List.forall_mem_cons.2 ⟨hP, hall⟩, rfl⟩
      · rw [if_neg hcomma] at hs ⊢
        by_cases hclose : c = close
        · rw [if_pos hclose] at hs ⊢
          cases hs
          exact ⟨List.forall_mem_singleton.2 hP, rfl⟩
        · rw [if_neg hclose] at hs
          cases hs

theorem sequence?_eq_some (h : ∀ s a t, item s = some (a, t) → P a ∧ item' s = some (a, t))
    {as : List α} (hs : sequence? item close s = some (as, t)) :
    (∀ a ∈ as, P a) ∧ sequence? item' close s = some (as, t) := by
  rw [sequence?] at hs ⊢
  cases hskip : skipBlanks s with
  | nil =>
    rw [hskip] at hs
    cases hs
  | cons c r =>
    simp only [hskip] at hs ⊢
    by_cases hclose : c = close
    · rw [if_pos hclose] at hs ⊢
      cases hs
      exact ⟨fun a ha => absurd ha List.not_mem_nil, rfl⟩
    · rw [if_neg hclose] at hs ⊢
      exact items?_eq_some h hs

theorem member?_eq_some (h : ∀ s a t, item s = some (a, t) → P a ∧ item' s = some (a, t)) :
    ∀ s m t, member? item s = some (m, t) → P m.2 ∧ member? item' s = some (m, t) := by
  intro s m t hs
  simp only [member?, Option.bind_eq_bind, Option.bind_eq_some_iff] at hs
  obtain ⟨⟨name, s₁⟩, hname, hs⟩ := hs
  simp only [member?, Option.bind_eq_bind, hname, Option.bind_some]
  cases hskip : skipBlanks s₁ with
  | nil =>
    rw [hskip] at hs
    cases hs
  | cons c s₂ =>
    by_cases hcolon : c = ':'
    · subst hcolon
      simp only [hskip, Option.bind_eq_some_iff] at hs ⊢
      obtain ⟨⟨a, s₃⟩, ha, hs⟩ := hs
      cases hs
      obtain ⟨hP, ha'⟩ := h s₂ a s₃ ha
      exact ⟨hP, _, ha', rfl⟩
    · rw [hskip] at hs
      split at hs
      · next heq => exact absurd (List.cons.inj heq).1 hcolon
      · cases hs

end Sequence

namespace Value

/-! ## Limits -/

theorem depth_of_scalar? {s t : List Char} {v : Value} (h : scalar? s = some (v, t)) :
    v.depth = 0 := by
  unfold scalar? at h
  split at h
  · cases h
    rfl
  · cases h
    rfl
  · cases h
    rfl
  · obtain ⟨r, -, h⟩ := Option.bind_eq_some_iff.1 h
    cases h
    rfl
  · obtain ⟨r, -, h⟩ := Option.bind_eq_some_iff.1 h
    cases h
    rfl

theorem scalar?_bracket {c : Char} (hc : c = '[' ∨ c = '\x7b') (s : List Char) :
    scalar? (c :: s) = none := by
  have hnumber : Number.read? (c :: s) = none := by
    cases hread : Number.read? (c :: s) with
    | none => rfl
    | some r =>
      obtain ⟨c', u, heq, hbegins⟩ := beginsNumber_of_read? hread
      obtain ⟨rfl, rfl⟩ := List.cons.inj heq
      rcases hc with rfl | rfl <;> rcases hbegins with h | h <;> cases h
  rcases hc with rfl | rfl <;> simp [scalar?, hnumber]

theorem within?_succ {d : Nat} {s t : List Char} {v : Value}
    (h : within? d s = some (v, t)) : v.depth ≤ d ∧ within? (d + 1) s = some (v, t) := by
  induction d generalizing s t v with
  | zero =>
    rw [within?] at h
    refine ⟨Nat.le_of_eq (depth_of_scalar? h), ?_⟩
    rw [within?.eq_def]
    dsimp only
    split
    · next s' heq =>
      rw [heq, scalar?_bracket (.inl rfl)] at h
      cases h
    · next s' heq =>
      rw [heq, scalar?_bracket (.inr rfl)] at h
      cases h
    · exact h
  | succ d ih =>
    rw [within?] at h ⊢
    split at h
    · obtain ⟨⟨items, t'⟩, hitems, h⟩ := Option.bind_eq_some_iff.1 h
      cases h
      obtain ⟨hdepth, hitems'⟩ := sequence?_eq_some (fun _ _ _ => ih) hitems
      refine ⟨depth_array_le_iff.2 hdepth, ?_⟩
      simp only [hitems', Option.bind_eq_bind, Option.bind_some]
      rfl
    · obtain ⟨⟨ms, t'⟩, hms, h⟩ := Option.bind_eq_some_iff.1 h
      cases h
      obtain ⟨hdepth, hms'⟩ := sequence?_eq_some (member?_eq_some fun _ _ _ => ih) hms
      refine ⟨depth_object_le_iff.2 hdepth, ?_⟩
      simp only [hms', Option.bind_eq_bind, Option.bind_some]
      rfl
    · exact ⟨by rw [depth_of_scalar? h]; exact Nat.zero_le _, h⟩

theorem within?_mono {d e : Nat} (hde : d ≤ e) {s t : List Char} {v : Value}
    (h : within? d s = some (v, t)) : within? e s = some (v, t) := by
  induction hde with
  | refl => exact h
  | step _ ih => exact (within?_succ ih).2

/-! ## What is read -/

theorem depth_lt_of_mem {items : List Value} {v : Value} (h : v ∈ items) :
    v.depth < (Value.array items).depth :=
  Nat.lt_succ_of_le (depthItems_le_iff.1 (Nat.le_refl _) v h)

theorem depth_reread (v : Value) : v.reread.depth = v.depth := by
  have hle (d : Nat) : v.reread.depth ≤ d ↔ v.depth ≤ d := by
    induction v using induct generalizing d with
    | scalar v hv =>
      cases v with
      | array items => cases hv
      | object ms => cases hv
      | _ => rfl
    | array items ih =>
      cases d with
      | zero => exact ⟨fun h => absurd h (Nat.not_succ_le_zero _),
          fun h => absurd h (Nat.not_succ_le_zero _)⟩
      | succ d =>
        rw [reread, rereadItems_eq_map, depth_array_le_iff, depth_array_le_iff, List.forall_mem_map]
        exact forall₂_congr fun v hv => ih v hv d
    | object ms ih =>
      cases d with
      | zero => exact ⟨fun h => absurd h (Nat.not_succ_le_zero _),
          fun h => absurd h (Nat.not_succ_le_zero _)⟩
      | succ d =>
        rw [reread, rereadMembers_eq_map, depth_object_le_iff, depth_object_le_iff,
          List.forall_mem_map]
        exact forall₂_congr fun m hm => ih m hm d
  exact Nat.le_antisymm ((hle _).2 (Nat.le_refl _)) ((hle _).1 (Nat.le_refl _))

theorem depth_sorted_le {v : Value} {d : Nat} (h : v.depth ≤ d) : v.sorted.depth ≤ d := by
  induction v using induct generalizing d with
  | scalar v hv => rwa [sorted_of_depth_eq_zero hv]
  | array items ih =>
    cases d with
    | zero => exact absurd h (Nat.not_succ_le_zero _)
    | succ d =>
      rw [depth_array_le_iff] at h
      rw [sorted, sortedItems_eq_map, depth_array_le_iff, List.forall_mem_map]
      exact fun v hv => ih v hv (h v hv)
  | object ms ih =>
    cases d with
    | zero => exact absurd h (Nat.not_succ_le_zero _)
    | succ d =>
      rw [depth_object_le_iff] at h
      rw [sorted, sortedMembers_eq_map, depth_object_le_iff]
      intro m hm
      obtain ⟨e, he, rfl⟩ := List.mem_map.1 (Members.mem_of_mem_ofList hm)
      exact ih e he (h e he)

theorem depth_le_of_read? {s : String} {v : Value} (h : read? s = some v) :
    v.depth ≤ depthLimit := by
  obtain ⟨⟨u, rest⟩, hwithin, hread⟩ := Option.bind_eq_some_iff.1 h
  obtain ⟨-, hu⟩ := Option.ite_none_right_eq_some.1 hread
  cases hu
  exact (within?_succ hwithin).1

theorem depth_le_of_parse? {s : String} {v : Value} (h : parse? s = some v) :
    v.depth ≤ depthLimit := by
  obtain ⟨w, hread, rfl⟩ := Option.map_eq_some_iff.1 h
  exact depth_sorted_le (depth_le_of_read? hread)

theorem sorted_of_parse? {s : String} {v : Value} (h : parse? s = some v) : Sorted v := by
  obtain ⟨w, -, rfl⟩ := Option.map_eq_some_iff.1 h
  exact sorted_sorted w

theorem parseOctets?_octets_eq_none {v : Value} (h : depthLimit < v.depth) :
    parseOctets? v.octets = none := by
  have hread := within?_chars (Nat.le_refl v.depth) closes_nil
  rw [List.append_nil] at hread
  have hnone : within? depthLimit v.chars = none := by
    cases hw : within? depthLimit v.chars with
    | none => rfl
    | some r =>
      obtain ⟨w, t⟩ := r
      have hsame := (within?_mono (Nat.le_of_lt h) hw).symm.trans hread
      have hdepth := (within?_succ hw).1
      cases hsame
      rw [depth_reread] at hdepth
      exact absurd h (Nat.not_lt.2 hdepth)
  rw [parseOctets?, octets, Octets.text?_ofText, Option.bind_some, parse?, read?, text,
    String.toList_ofList, hnone]
  rfl

end Value

end SelectiveDisclosure.Json
