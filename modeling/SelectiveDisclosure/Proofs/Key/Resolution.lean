import SelectiveDisclosure.Key.Resolution

/-!
# Keys found by insertion

A store that was built by insertions answers with the public part of the key that was inserted
first under the issuer and the key id, and without a key id with that of the only key of the issuer.
-/

set_option autoImplicit false

namespace SelectiveDisclosure

namespace IssuerKeys
variable {insertions : List (String × Jwk)} {issuer : String} {keyId : Option String} {k : Jwk}

def ofInsertions (insertions : List (String × Jwk)) : IssuerKeys :=
  insertions.foldl (fun keys e => keys.insert e.1 e.2) empty

/-- Of the keys that were inserted for the issuer this is the first with the key id, or the only
one if no key id is given. -/
def Chooses (insertions : List (String × Jwk)) (issuer : String) (keyId : Option String)
    (k : Jwk) : Prop :=
  ∃ earlier later, insertions = earlier ++ (issuer, k) :: later ∧
    match keyId with
    | some id => k.keyId = some id ∧ ∀ e ∈ earlier, e.1 = issuer → e.2.keyId ≠ some id
    | none => ∀ e ∈ earlier ++ later, e.1 ≠ issuer

theorem ofIssuer_insert (keys : IssuerKeys) (s : String) (k : Jwk) (issuer : String) :
    (keys.insert s k).ofIssuer issuer =
      keys.ofIssuer issuer ++ if s = issuer then [k.toPublic] else [] := by
  rw [ofIssuer, insert, List.filterMap_append]
  by_cases hs : s = issuer <;> simp [hs, ofIssuer]

theorem ofIssuer_ofInsertions (insertions : List (String × Jwk)) (issuer : String) :
    (ofInsertions insertions).ofIssuer issuer =
      insertions.filterMap fun e => if e.1 = issuer then some e.2.toPublic else none := by
  have hfold : ∀ keys : IssuerKeys,
      (insertions.foldl (fun keys e => keys.insert e.1 e.2) keys).ofIssuer issuer =
        keys.ofIssuer issuer ++
          insertions.filterMap fun e => if e.1 = issuer then some e.2.toPublic else none := by
    induction insertions with
    | nil => exact fun keys => (List.append_nil _).symm
    | cons e r ih =>
      intro keys
      rw [List.foldl_cons, ih, ofIssuer_insert, List.append_assoc]
      by_cases he : e.1 = issuer <;> simp [he]
  exact hfold empty

theorem get?_some_eq_some_iff {id : String} {k' : Jwk} :
    (ofInsertions insertions).get? issuer (some id) = some k' ↔
      ∃ k, Chooses insertions issuer (some id) k ∧ k' = k.toPublic := by
  rw [get?, ofIssuer_ofInsertions, List.find?_filterMap, Option.bind_eq_some_iff]
  constructor
  · rintro ⟨⟨s, k⟩, hfind, hk⟩
    obtain ⟨hany, earlier, later, rfl, hearlier⟩ := List.find?_eq_some_iff_append.1 hfind
    by_cases hs : s = issuer
    · subst hs
      simp only [if_true, Option.some.injEq] at hk
      refine ⟨k, ⟨earlier, later, rfl, ?_, fun e he hissuer => ?_⟩, hk.symm⟩
      · simpa [Jwk.toPublic] using hany
      · simpa [hissuer, Jwk.toPublic] using hearlier e he
    · simp [hs] at hk
  · rintro ⟨k, ⟨earlier, later, rfl, hid, hearlier⟩, rfl⟩
    refine ⟨(issuer, k), List.find?_eq_some_iff_append.2
      ⟨by simpa [Jwk.toPublic] using hid, earlier, later, rfl, fun e he => ?_⟩, by simp⟩
    by_cases hs : e.1 = issuer
    · simpa [hs, Jwk.toPublic] using hearlier e he hs
    · simp [hs]

theorem get?_none_eq_some_iff {k' : Jwk} :
    (ofInsertions insertions).get? issuer none = some k' ↔
      ∃ k, Chooses insertions issuer none k ∧ k' = k.toPublic := by
  have hsingle : (ofInsertions insertions).get? issuer none = some k' ↔
      (ofInsertions insertions).ofIssuer issuer = [k'] := by
    rw [get?]
    split
    · next k hk => simp [hk]
    · next hne => simpa using fun h => hne k' h
  have hnone (e : String × Jwk) :
      (if e.1 = issuer then some e.2.toPublic else none) = none ↔ e.1 ≠ issuer := by
    by_cases he : e.1 = issuer <;> simp [he]
  rw [hsingle, ofIssuer_ofInsertions, List.filterMap_eq_cons_iff]
  simp only [List.filterMap_eq_nil_iff, hnone]
  constructor
  · rintro ⟨earlier, ⟨s, k⟩, later, rfl, hearlier, hk, hlater⟩
    by_cases hs : s = issuer
    · subst hs
      simp only [if_true, Option.some.injEq] at hk
      exact ⟨k, ⟨earlier, later, rfl, List.forall_mem_append.2 ⟨hearlier, hlater⟩⟩, hk.symm⟩
    · simp [hs] at hk
  · rintro ⟨k, ⟨earlier, later, rfl, hothers⟩, rfl⟩
    obtain ⟨hearlier, hlater⟩ := List.forall_mem_append.1 hothers
    exact ⟨earlier, (issuer, k), later, rfl, hearlier, by simp, hlater⟩

theorem resolver_ofInsertions_eq_ok_iff {asked : Option String} :
    (ofInsertions insertions).resolver asked keyId = .ok k ↔
      ∃ issuer inserted, asked = some issuer ∧ Chooses insertions issuer keyId inserted ∧
        k = inserted.toPublic := by
  have hget (issuer : String) : (ofInsertions insertions).get? issuer keyId = some k ↔
      ∃ inserted, Chooses insertions issuer keyId inserted ∧ k = inserted.toPublic := by
    cases keyId with
    | some id => exact get?_some_eq_some_iff
    | none => exact get?_none_eq_some_iff
  cases asked with
  | none => simp [resolver]
  | some issuer =>
    rw [resolver]
    simp only [Option.some.injEq, exists_and_left, exists_eq_left', ← hget]
    cases (ofInsertions insertions).get? issuer keyId <;> simp

end IssuerKeys

end SelectiveDisclosure
