import SelectiveDisclosure.Json.Value

/-!
# Members in ascending order

Lists of members whose names ascend are maps: a name leads to one value, erasing and inserting keep
the order, and two such lists with the same members are equal.
-/

set_option autoImplicit false

namespace SelectiveDisclosure.Json.Members
variable {α : Type} {ms : List (String × α)} {k n : String} {v u : α}

/-! ## Looking up -/

theorem mem_of_get? (h : get? ms k = some v) : (k, v) ∈ ms := by
  induction ms with
  | nil => simp [get?] at h
  | cons m r ih =>
    obtain ⟨j, w⟩ := m
    rw [get?] at h
    split at h
    · next hj => simp_all
    · exact List.mem_cons_of_mem _ (ih h)

theorem get?_eq_none_iff : get? ms k = none ↔ k ∉ names ms := by
  induction ms with
  | nil => simp [get?, names]
  | cons m r ih =>
    obtain ⟨j, w⟩ := m
    rw [get?]
    by_cases hj : j = k
    · simp [hj, names]
    · simp only [hj, if_false, ih]
      simp [names, Ne.symm hj]

theorem mem_names_of_mem (h : (k, v) ∈ ms) : k ∈ names ms :=
  List.mem_map.2 ⟨(k, v), h, rfl⟩

theorem nodup_names (h : Ascending ms) : (names ms).Nodup := by
  rw [names, List.Nodup, List.pairwise_map]
  refine h.imp fun {a b} hab he => ?_
  rw [he] at hab
  exact String.lt_irrefl _ hab

theorem get?_of_mem_of_nodup (h : (names ms).Nodup) (hm : (k, v) ∈ ms) : get? ms k = some v := by
  induction ms with
  | nil => simp at hm
  | cons m r ih =>
    obtain ⟨j, w⟩ := m
    rw [names, List.map_cons, List.nodup_cons] at h
    rw [get?]
    rcases List.mem_cons.1 hm with he | hm
    · simp_all
    · have hne : j ≠ k := by
        rintro rfl
        exact h.1 (mem_names_of_mem hm)
      rw [if_neg hne]
      exact ih h.2 hm

theorem get?_of_mem (h : Ascending ms) (hm : (k, v) ∈ ms) : get? ms k = some v :=
  get?_of_mem_of_nodup (nodup_names h) hm

theorem get?_append (as bs : List (String × α)) (k : String) :
    get? (as ++ bs) k = (get? as k).or (get? bs k) := by
  induction as with
  | nil => simp [get?]
  | cons m r ih =>
    obtain ⟨j, w⟩ := m
    rw [List.cons_append, get?, get?]
    split <;> simp [ih]

theorem get?_map {β : Type} (f : α → β) (ms : List (String × α)) (k : String) :
    get? (ms.map fun m => (m.1, f m.2)) k = (get? ms k).map f := by
  induction ms with
  | nil => rfl
  | cons m r ih =>
    obtain ⟨j, w⟩ := m
    rw [List.map_cons, get?, get?]
    split <;> simp [ih]

theorem get?_perm {as bs : List (String × α)} (h : (names as).Nodup) (hp : as.Perm bs)
    (k : String) : get? as k = get? bs k := by
  cases ha : get? as k with
  | none =>
    rw [get?_eq_none_iff] at ha
    rw [eq_comm, get?_eq_none_iff]
    exact fun hb => ha ((hp.map Prod.fst).mem_iff.2 hb)
  | some v =>
    have hb : (names bs).Nodup := (hp.map Prod.fst).nodup_iff.1 h
    exact (get?_of_mem_of_nodup hb (hp.mem_iff.1 (mem_of_get? ha))).symm

/-! ## Erasing -/

theorem mem_erase : (k, v) ∈ erase ms n ↔ (k, v) ∈ ms ∧ k ≠ n := by
  simp [erase]

theorem ascending_erase (h : Ascending ms) : Ascending (erase ms n) :=
  h.filter _

theorem erase_of_notMem (h : n ∉ names ms) : erase ms n = ms := by
  rw [erase, List.filter_eq_self]
  intro m hm
  rw [bne_iff_ne]
  rintro rfl
  exact h (List.mem_map.2 ⟨m, hm, rfl⟩)

theorem erase_map {β : Type} (f : α → β) (ms : List (String × α)) (n : String) :
    erase (ms.map fun m => (m.1, f m.2)) n = (erase ms n).map fun m => (m.1, f m.2) := by
  simp [erase, List.filter_map, Function.comp_def]

theorem erase_append (as bs : List (String × α)) (n : String) :
    erase (as ++ bs) n = erase as n ++ erase bs n :=
  List.filter_append _ _

theorem erase_comm (ms : List (String × α)) (k n : String) :
    erase (erase ms k) n = erase (erase ms n) k := by
  simp [erase, List.filter_filter, Bool.and_comm]

/-! ## Inserting -/

theorem names_insert_subset : ∀ j ∈ names (insert k v ms), j = k ∨ j ∈ names ms := by
  induction ms with
  | nil => simp [insert, names]
  | cons m r ih =>
    obtain ⟨j, w⟩ := m
    rw [insert]
    split
    · simp [names]
    · split
      · next h => simp_all [names]
      · intro i hi
        simp only [names, List.map_cons, List.mem_cons] at hi ih ⊢
        rcases hi with hi | hi
        · exact .inr (.inl hi)
        · rcases ih i hi with h | h
          · exact .inl h
          · exact .inr (.inr h)

theorem ascending_insert (h : Ascending ms) : Ascending (insert k v ms) := by
  induction ms with
  | nil => simp [insert, Ascending]
  | cons m r ih =>
    obtain ⟨j, w⟩ := m
    obtain ⟨hj, hr⟩ := List.pairwise_cons.1 h
    rw [insert]
    split
    · next hk =>
      refine List.pairwise_cons.2 ⟨?_, h⟩
      intro m hm
      rcases List.mem_cons.1 hm with rfl | hm
      · exact hk
      · exact String.lt_trans hk (hj m hm)
    · next hk =>
      split
      · next he =>
        subst he
        exact List.pairwise_cons.2 ⟨hj, hr⟩
      · next hne =>
        refine List.pairwise_cons.2 ⟨?_, ih hr⟩
        intro m hm
        rcases names_insert_subset m.1 (List.mem_map.2 ⟨m, hm, rfl⟩) with he | hn
        · rw [he]
          rcases Std.lt_trichotomy k j with hlt | heq | hgt
          · exact absurd hlt hk
          · exact absurd heq hne
          · exact hgt
        · obtain ⟨m', hm', he⟩ := List.mem_map.1 hn
          rw [← he]
          exact hj m' hm'

theorem perm_insert (h : k ∉ names ms) : (insert k v ms).Perm ((k, v) :: ms) := by
  induction ms with
  | nil => exact List.Perm.refl _
  | cons m r ih =>
    obtain ⟨j, w⟩ := m
    simp only [names, List.map_cons, List.mem_cons, not_or] at h ih
    rw [insert]
    split
    · exact List.Perm.refl _
    · rw [if_neg h.1]
      exact ((ih h.2).cons _).trans (List.Perm.swap _ _ _)

theorem insert_map {β : Type} (f : α → β) (k : String) (v : α) (ms : List (String × α)) :
    insert k (f v) (ms.map fun m => (m.1, f m.2)) = (insert k v ms).map fun m => (m.1, f m.2) := by
  induction ms with
  | nil => rfl
  | cons m r ih =>
    obtain ⟨j, w⟩ := m
    simp only [List.map_cons, insert]
    split
    · rfl
    · split <;> simp [ih]

@[simp]
theorem names_map {β : Type} (f : α → β) (ms : List (String × α)) :
    names (ms.map fun m => (m.1, f m.2)) = names ms := by
  simp [names, Function.comp_def]

theorem get?_insert_self : get? (insert k v ms) k = some v := by
  induction ms with
  | nil => simp [insert, get?]
  | cons m r ih =>
    obtain ⟨j, w⟩ := m
    rw [insert]
    split
    · simp [get?]
    · split
      · simp [get?]
      · next hne => rw [get?, if_neg (Ne.symm hne), ih]

theorem erase_insert_self : erase (insert k v ms) k = erase ms k := by
  induction ms with
  | nil => simp [insert, erase]
  | cons m r ih =>
    obtain ⟨j, w⟩ := m
    rw [insert]
    split
    · simp [erase]
    · split
      · next he => simp [erase, he]
      · next hne =>
        simp only [erase, List.filter_cons, bne_iff_ne, ne_eq, Ne.symm hne, not_false_eq_true,
          if_true] at ih ⊢
        rw [ih]

theorem eq_of_perm {as bs : List (String × α)} (ha : Ascending as) (hb : Ascending bs)
    (h : as.Perm bs) : as = bs :=
  h.eq_of_pairwise
    (fun _ _ _ _ hab hba => absurd hba (String.lt_asymm hab)) ha hb

theorem ascending_append_cons {as bs : List (String × α)}
    (h : Ascending (as ++ (k, v) :: bs)) :
    (∀ m ∈ as, m.1 < k) ∧ ∀ m ∈ bs, k < m.1 := by
  obtain ⟨_, hbs, hab⟩ := List.pairwise_append.1 h
  exact ⟨fun m hm => hab m hm (k, v) (by simp), (List.pairwise_cons.1 hbs).1⟩

theorem insert_append_cons {as bs : List (String × α)} (h : Ascending (as ++ (k, v) :: bs)) :
    insert k u (as ++ (k, v) :: bs) = as ++ (k, u) :: bs := by
  have hlt := (ascending_append_cons h).1
  induction as with
  | nil => simp [insert]
  | cons m r ih =>
    obtain ⟨j, w⟩ := m
    have hj : j < k := hlt (j, w) (by simp)
    have hne : k ≠ j := fun he => String.lt_irrefl k (he ▸ hj)
    rw [List.cons_append, insert, if_neg (String.lt_asymm hj), if_neg hne,
      ih (List.pairwise_cons.1 h).2 fun m hm => hlt m (by simp [hm])]
    rfl

theorem erase_append_cons {as bs : List (String × α)} (h : Ascending (as ++ (k, v) :: bs)) :
    erase (as ++ (k, v) :: bs) k = as ++ bs := by
  obtain ⟨hlt, hgt⟩ := ascending_append_cons h
  have ha : k ∉ names as := by
    intro hm
    obtain ⟨m, hm, he⟩ := List.mem_map.1 hm
    exact String.lt_irrefl _ (he ▸ hlt m hm)
  have hb : k ∉ names bs := by
    intro hm
    obtain ⟨m, hm, he⟩ := List.mem_map.1 hm
    exact String.lt_irrefl _ (he ▸ hgt m hm)
  rw [erase_append, erase_of_notMem ha]
  simpa [erase] using erase_of_notMem hb

theorem exists_append_cons (h : get? ms k = some v) : ∃ as bs, ms = as ++ (k, v) :: bs :=
  List.append_of_mem (mem_of_get? h)

theorem erase_insert_of_ne (hne : k ≠ n) (h : Ascending ms) :
    erase (insert k v ms) n = insert k v (erase ms n) := by
  cases hg : get? ms k with
  | some u =>
    obtain ⟨as, bs, rfl⟩ := exists_append_cons hg
    have hk : erase [(k, v)] n = [(k, v)] := by simp [erase, hne]
    have hu : erase [(k, u)] n = [(k, u)] := by simp [erase, hne]
    have hsplit (x : α) (hx : erase [(k, x)] n = [(k, x)]) :
        erase (as ++ (k, x) :: bs) n = erase as n ++ (k, x) :: erase bs n := by
      rw [erase_append, ← List.singleton_append, erase_append, hx, List.singleton_append]
    rw [insert_append_cons h, hsplit v hk, hsplit u hu, insert_append_cons]
    rw [← hsplit u hu]
    exact ascending_erase h
  | none =>
    have hk : k ∉ names ms := get?_eq_none_iff.1 hg
    have hke : k ∉ names (erase ms n) := by
      intro hm
      obtain ⟨m, hm, he⟩ := List.mem_map.1 hm
      exact hk (List.mem_map.2 ⟨m, (List.mem_filter.1 hm).1, he⟩)
    apply eq_of_perm (ascending_erase (ascending_insert h)) (ascending_insert (ascending_erase h))
    have hfilter := (perm_insert (v := v) hk).filter fun m => m.1 != n
    rw [List.filter_cons_of_pos (by simpa using hne)] at hfilter
    exact hfilter.trans (perm_insert hke).symm

theorem get?_insert_of_ne (hne : k ≠ n) : get? (insert k v ms) n = get? ms n := by
  induction ms with
  | nil => simp [insert, get?, hne]
  | cons m r ih =>
    obtain ⟨j, w⟩ := m
    rw [insert]
    split
    · rw [get?, if_neg hne]
    · split
      · next he => rw [get?, if_neg hne, get?, if_neg (he ▸ hne)]
      · rw [get?, get?, ih]

theorem get?_erase_of_ne (hne : k ≠ n) : get? (erase ms k) n = get? ms n := by
  induction ms with
  | nil => rfl
  | cons m r ih =>
    obtain ⟨j, w⟩ := m
    by_cases hj : j = k
    · rw [get?, if_neg (hj ▸ hne), ← ih]
      simp [erase, hj]
    · rw [get?, ← ih]
      simp [erase, hj, get?]

theorem perm_of_get? (h : Ascending ms) (hg : get? ms k = some v) :
    ms.Perm ((k, v) :: erase ms k) := by
  obtain ⟨as, bs, rfl⟩ := exists_append_cons hg
  rw [erase_append_cons h]
  exact List.perm_middle

theorem perm_insert_erase (h : Ascending ms) :
    (insert k v ms).Perm ((k, v) :: erase ms k) := by
  rw [← erase_insert_self (v := v)]
  exact perm_of_get? (ascending_insert h) get?_insert_self

theorem insert_comm (hne : k ≠ n) (h : Ascending ms) (u w : α) :
    insert k u (insert n w ms) = insert n w (insert k u ms) := by
  apply eq_of_perm (ascending_insert (ascending_insert h)) (ascending_insert (ascending_insert h))
  have hk := perm_insert_erase (k := k) (v := u) (ascending_insert (k := n) (v := w) h)
  have hn := perm_insert_erase (k := n) (v := w) (ascending_insert (k := k) (v := u) h)
  rw [erase_insert_of_ne (Ne.symm hne) h] at hk
  rw [erase_insert_of_ne hne h] at hn
  have hk' := perm_insert_erase (k := n) (v := w) (ascending_erase (n := k) h)
  have hn' := perm_insert_erase (k := k) (v := u) (ascending_erase (n := n) h)
  rw [erase_comm] at hn'
  exact (hk.trans (hk'.cons (k, u))).trans ((List.Perm.swap _ _ _).trans
    (hn.trans (hn'.cons (n, w))).symm)

end SelectiveDisclosure.Json.Members
