import SelectiveDisclosure.Claims.Concealing
import SelectiveDisclosure.Proofs.Json.Members

/-!
# Digests in values

The digests in a value are those of its items or members. An array of digests keeps what is put
into it, and a check finds no digest repeated exactly if they are distinct.
-/

set_option autoImplicit false

namespace SelectiveDisclosure

open Json

namespace Digests

def ofItem (v : Value) : List String :=
  match placeholder? v with
  | some g => [g]
  | none => inValue v

def ofMember (m : String × Value) : List String :=
  if m.1 = membersName then textsOf m.2 else inValue m.2

theorem inItems_eq_flatMap (items : List Value) : inItems items = items.flatMap ofItem := by
  induction items with
  | nil => rfl
  | cons v r ih =>
    rw [inItems, List.flatMap_cons, ofItem, ih]
    cases placeholder? v <;> rfl

theorem inMembers_eq_flatMap (ms : List (String × Value)) :
    inMembers ms = ms.flatMap ofMember := by
  induction ms with
  | nil => rfl
  | cons m r ih => rw [inMembers, List.flatMap_cons, ofMember, ih]

theorem inMembers_perm {as bs : List (String × Value)} (h : as.Perm bs) :
    (inMembers as).Perm (inMembers bs) := by
  rw [inMembers_eq_flatMap, inMembers_eq_flatMap]
  exact h.flatMap_right _

theorem textsOf_strings (ds : List String) : textsOf (.array (ds.map .string)) = ds := by
  rw [textsOf, List.filterMap_map]
  exact List.filterMap_some

theorem placeholder?_placeholder (g : String) : placeholder? (placeholder g) = some g := by
  simp [placeholder?, placeholder]

theorem eq_placeholder {v : Value} {g : String} (h : placeholder? v = some g) :
    v = placeholder g := by
  unfold placeholder? at h
  split at h
  · next name digest =>
    by_cases hn : name = placeholderName
    · simp only [hn, if_true, Option.some.injEq] at h
      rw [hn, h]
      rfl
    · simp [hn] at h
  · cases h

theorem firstRepeated?_eq_none_iff {met l : List String} :
    firstRepeated? met l = none ↔ l.Nodup ∧ ∀ s ∈ l, s ∉ met := by
  induction l generalizing met with
  | nil => simp [firstRepeated?]
  | cons s r ih =>
    rw [firstRepeated?]
    by_cases hs : s ∈ met
    · simp [hs]
    · rw [if_neg hs, ih, List.nodup_cons]
      constructor
      · rintro ⟨hn, hr⟩
        refine ⟨⟨fun hm => hr s hm List.mem_cons_self, hn⟩, fun t ht => ?_⟩
        rcases List.mem_cons.1 ht with rfl | ht
        · exact hs
        · exact fun hm => hr t ht (List.mem_cons_of_mem _ hm)
      · rintro ⟨⟨hsr, hn⟩, hall⟩
        refine ⟨hn, fun t ht hm => ?_⟩
        rcases List.mem_cons.1 hm with rfl | hm
        · exact hsr ht
        · exact hall t (List.mem_cons_of_mem _ ht) hm

end Digests

namespace Concealer

theorem insertDigest_strings (g : String) (ds : List String) :
    ∃ ds' : List String,
      insertDigest g (ds.map .string) = ds'.map .string ∧ ds'.Perm (g :: ds) := by
  induction ds with
  | nil => exact ⟨[g], rfl, List.Perm.refl _⟩
  | cons s r ih =>
    rw [List.map_cons, insertDigest]
    by_cases hs : s < g
    · obtain ⟨ds', hds', hp⟩ := ih
      exact ⟨s :: ds', by simp [hs, hds'], (hp.cons s).trans (List.Perm.swap g s r)⟩
    · exact ⟨g :: s :: r, by simp [hs], List.Perm.refl _⟩

theorem sortedDigests_strings (ds : List String) :
    ∃ ds' : List String, sortedDigests (ds.map .string) = ds'.map .string ∧ ds'.Perm ds := by
  induction ds with
  | nil => exact ⟨[], rfl, List.Perm.refl _⟩
  | cons s r ih =>
    obtain ⟨ds', hds', hp⟩ := ih
    obtain ⟨ds'', hds'', hp'⟩ := insertDigest_strings s ds'
    refine ⟨ds'', ?_, hp'.trans (hp.cons s)⟩
    rw [sortedDigests, List.map_cons, List.foldr_cons, ← sortedDigests, hds']
    exact hds''

end Concealer

end SelectiveDisclosure
