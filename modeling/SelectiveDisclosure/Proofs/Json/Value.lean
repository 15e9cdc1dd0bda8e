import SelectiveDisclosure.Proofs.Json.Members

/-!
# Sorted values and their depth

The sorted form of a value is sorted, and a sorted value is its own sorted form. What holds at
every depth of a value is said of its items and members one by one.
-/

set_option autoImplicit false

namespace SelectiveDisclosure.Json

namespace Value

section Induct
variable {P : Value → Prop}

mutual

theorem induct_value (scalar : ∀ v, v.depth = 0 → P v)
    (array : ∀ items, (∀ v ∈ items, P v) → P (.array items))
    (object : ∀ members, (∀ m ∈ members, P m.2) → P (.object members)) : ∀ v, P v
  | .array items => array items (induct_items scalar array object items)
  | .object members => object members (induct_members scalar array object members)
  | .null => scalar _ rfl
  | .bool _ => scalar _ rfl
  | .number _ => scalar _ rfl
  | .string _ => scalar _ rfl

theorem induct_items (scalar : ∀ v, v.depth = 0 → P v)
    (array : ∀ items, (∀ v ∈ items, P v) → P (.array items))
    (object : ∀ members, (∀ m ∈ members, P m.2) → P (.object members)) :
    ∀ items : List Value, ∀ v ∈ items, P v
  | [], _, h => absurd h List.not_mem_nil
  | u :: r, v, h => (List.mem_cons.1 h).elim
      (fun he => he ▸ induct_value scalar array object u)
      (induct_items scalar array object r v)

theorem induct_members (scalar : ∀ v, v.depth = 0 → P v)
    (array : ∀ items, (∀ v ∈ items, P v) → P (.array items))
    (object : ∀ members, (∀ m ∈ members, P m.2) → P (.object members)) :
    ∀ members : List (String × Value), ∀ m ∈ members, P m.2
  | [], _, h => absurd h List.not_mem_nil
  | (_, u) :: r, m, h => (List.mem_cons.1 h).elim
      (fun he => he ▸ induct_value scalar array object u)
      (induct_members scalar array object r m)

end

end Induct

/-- Induction on a value through the items of arrays and the members of objects. -/
@[elab_as_elim]
theorem induct {P : Value → Prop} (scalar : ∀ v, v.depth = 0 → P v)
    (array : ∀ items, (∀ v ∈ items, P v) → P (.array items))
    (object : ∀ members, (∀ m ∈ members, P m.2) → P (.object members)) (v : Value) : P v :=
  induct_value scalar array object v

/-! ## Sorted values -/

theorem sortedItems_iff {items : List Value} : SortedItems items ↔ ∀ v ∈ items, Sorted v := by
  induction items with
  | nil => simp [SortedItems]
  | cons v r ih => simp [SortedItems, ih]

theorem sortedMembers_iff {ms : List (String × Value)} :
    SortedMembers ms ↔ ∀ m ∈ ms, Sorted m.2 := by
  induction ms with
  | nil => simp [SortedMembers]
  | cons m r ih => simp [SortedMembers, ih]

theorem sorted_array_iff {items : List Value} :
    Sorted (.array items) ↔ ∀ v ∈ items, Sorted v := by
  rw [Sorted, sortedItems_iff]

theorem sorted_object_iff {ms : Members} :
    Sorted (.object ms) ↔ Members.Ascending ms ∧ ∀ m ∈ ms, Sorted m.2 := by
  rw [Sorted, sortedMembers_iff]

theorem sorted_singleton_iff {k : String} {v : Value} : Sorted (.object [(k, v)]) ↔ Sorted v := by
  simp [sorted_object_iff, Members.Ascending]

theorem sortedItems_eq_map (items : List Value) : sortedItems items = items.map sorted := by
  induction items with
  | nil => rfl
  | cons v r ih => simp [sortedItems, ih]

theorem sortedMembers_eq_map (ms : List (String × Value)) :
    sortedMembers ms = ms.map fun m => (m.1, sorted m.2) := by
  induction ms with
  | nil => rfl
  | cons m r ih => simp [sortedMembers, ih]

end Value

namespace Members
variable {α : Type}

theorem mem_insert_imp {k : String} {v : α} {ms : List (String × α)} :
    ∀ m ∈ insert k v ms, m = (k, v) ∨ m ∈ ms := by
  induction ms with
  | nil => simp [insert]
  | cons e r ih =>
    obtain ⟨j, w⟩ := e
    rw [insert]
    split
    · simp
    · split
      · intro m hm
        rcases List.mem_cons.1 hm with h | h <;> simp [h]
      · intro m hm
        rcases List.mem_cons.1 hm with h | h
        · simp [h]
        · rcases ih m h with h | h <;> simp [h]

theorem forall_mem_insert {P : String × α → Prop} {k : String} {v : α} {ms : List (String × α)}
    (hnew : P (k, v)) (hms : ∀ m ∈ ms, P m) : ∀ m ∈ insert k v ms, P m := by
  intro m hm
  rcases mem_insert_imp m hm with rfl | hm
  · exact hnew
  · exact hms m hm

theorem foldl_insert_spec (ms sorted : List (String × α)) (h : Ascending sorted) :
    Ascending (ms.foldl (fun sorted m => insert m.1 m.2 sorted) sorted) ∧
    ∀ m ∈ ms.foldl (fun sorted m => insert m.1 m.2 sorted) sorted, m ∈ ms ∨ m ∈ sorted := by
  induction ms generalizing sorted with
  | nil => exact ⟨h, fun m hm => .inr hm⟩
  | cons e r ih =>
    obtain ⟨ha, hm⟩ := ih (insert e.1 e.2 sorted) (ascending_insert h)
    refine ⟨ha, fun m hmem => ?_⟩
    rcases hm m hmem with h | h
    · exact .inl (by simp [h])
    · rcases mem_insert_imp m h with h | h <;> simp [h]

theorem ascending_ofList (ms : List (String × α)) : Ascending (ofList ms) :=
  (foldl_insert_spec ms [] List.Pairwise.nil).1

theorem mem_of_mem_ofList {ms : List (String × α)} {m : String × α} (h : m ∈ ofList ms) :
    m ∈ ms :=
  ((foldl_insert_spec ms [] List.Pairwise.nil).2 m h).resolve_right List.not_mem_nil

theorem perm_foldl_insert (ms sorted : List (String × α)) (h : (names (ms ++ sorted)).Nodup) :
    (ms.foldl (fun sorted m => insert m.1 m.2 sorted) sorted).Perm (ms ++ sorted) := by
  induction ms generalizing sorted with
  | nil => exact List.Perm.refl _
  | cons e r ih =>
    have hn : e.1 ∉ names sorted := by
      intro hm
      apply (List.nodup_cons.1 h).1
      obtain ⟨v, hv⟩ := List.mem_map.1 hm
      exact List.mem_map.2 ⟨v, List.mem_append_right _ hv.1, hv.2⟩
    have hp : (r ++ insert e.1 e.2 sorted).Perm (e :: r ++ sorted) :=
      ((perm_insert hn).append_left r).trans List.perm_middle
    exact (ih _ ((hp.map Prod.fst).nodup_iff.2 h)).trans hp

theorem perm_ofList {ms : List (String × α)} (h : (names ms).Nodup) : (ofList ms).Perm ms := by
  simpa [ofList] using perm_foldl_insert ms [] (by simpa using h)

theorem ofList_of_ascending {ms : List (String × α)} (h : Ascending ms) : ofList ms = ms :=
  eq_of_perm (ascending_ofList ms) h (perm_ofList (nodup_names h))

end Members

namespace Value

theorem sorted_strings (ss : List String) : Sorted (.array (ss.map .string)) := by
  rw [sorted_array_iff]
  intro v hv
  obtain ⟨s, -, rfl⟩ := List.mem_map.1 hv
  trivial

theorem sorted_insert {k : String} {v : Value} {ms : Members} (hv : Sorted v)
    (hms : Sorted (.object ms)) : Sorted (.object (Members.insert k v ms)) := by
  rw [sorted_object_iff] at hms ⊢
  exact ⟨Members.ascending_insert hms.1, Members.forall_mem_insert hv hms.2⟩

theorem sorted_of_depth_eq_zero {v : Value} (h : v.depth = 0) : v.sorted = v := by
  cases v <;> first | rfl | exact absurd h (by simp [depth])

theorem sorted_sorted (v : Value) : Sorted v.sorted := by
  induction v using induct with
  | scalar v h =>
    rw [sorted_of_depth_eq_zero h]
    cases v <;> trivial
  | array items ih =>
    rw [sorted, sorted_array_iff, sortedItems_eq_map]
    intro v hv
    obtain ⟨u, hu, rfl⟩ := List.mem_map.1 hv
    exact ih u hu
  | object members ih =>
    rw [sorted, sorted_object_iff, sortedMembers_eq_map]
    refine ⟨Members.ascending_ofList _, fun m hm => ?_⟩
    obtain ⟨e, he, rfl⟩ := List.mem_map.1 (Members.mem_of_mem_ofList hm)
    exact ih e he

theorem sortedMembers_eq_self {ms : Members} (h : ∀ m ∈ ms, m.2.sorted = m.2) :
    sortedMembers ms = ms := by
  rw [sortedMembers_eq_map, List.map_congr_left (g := id)]
  · exact List.map_id _
  · intro m hm
    rw [h m hm]
    rfl

theorem sorted_eq_self {v : Value} (h : Sorted v) : v.sorted = v := by
  induction v using induct with
  | scalar v hv => exact sorted_of_depth_eq_zero hv
  | array items ih =>
    rw [sorted_array_iff] at h
    rw [sorted, sortedItems_eq_map, List.map_congr_left fun v hv => ih v hv (h v hv), List.map_id']
  | object members ih =>
    rw [sorted_object_iff] at h
    rw [sorted, sortedMembers_eq_self fun m hm => ih m hm (h.2 m hm),
      Members.ofList_of_ascending h.1]

/-! ## Depth -/

theorem depthItems_le_iff {items : List Value} {n : Nat} :
    depthItems items ≤ n ↔ ∀ v ∈ items, depth v ≤ n := by
  induction items with
  | nil => simp [depthItems]
  | cons v r ih => rw [depthItems, Nat.max_le, ih, List.forall_mem_cons]

theorem depthMembers_le_iff {ms : List (String × Value)} {n : Nat} :
    depthMembers ms ≤ n ↔ ∀ m ∈ ms, depth m.2 ≤ n := by
  induction ms with
  | nil => simp [depthMembers]
  | cons m r ih => rw [depthMembers, Nat.max_le, ih, List.forall_mem_cons]

theorem depth_array_le_iff {items : List Value} {n : Nat} :
    depth (.array items) ≤ n + 1 ↔ ∀ v ∈ items, depth v ≤ n := by
  rw [depth, Nat.add_le_add_iff_right, depthItems_le_iff]

theorem depth_object_le_iff {ms : Members} {n : Nat} :
    depth (.object ms) ≤ n + 1 ↔ ∀ m ∈ ms, depth m.2 ≤ n := by
  rw [depth, Nat.add_le_add_iff_right, depthMembers_le_iff]

/-! ## Predicates at every depth -/

section Everywhere
variable (P : Value → Prop)

mutual

/-- The predicate holds of the value and of everything in it. -/
def Everywhere : Value → Prop
  | .array items => P (.array items) ∧ EverywhereItems items
  | .object members => P (.object members) ∧ EverywhereMembers members
  | v => P v

def EverywhereItems : List Value → Prop
  | [] => True
  | v :: r => Everywhere v ∧ EverywhereItems r

def EverywhereMembers : List (String × Value) → Prop
  | [] => True
  | (_, v) :: r => Everywhere v ∧ EverywhereMembers r

end

variable {P}

section Decide
variable [DecidablePred P]

mutual

def decideEverywhere : ∀ v, Decidable (Everywhere P v)
  | .array items =>
    have := decideEverywhereItems items
    inferInstanceAs (Decidable (P (.array items) ∧ EverywhereItems P items))
  | .object members =>
    have := decideEverywhereMembers members
    inferInstanceAs (Decidable (P (.object members) ∧ EverywhereMembers P members))
  | .null => inferInstanceAs (Decidable (P .null))
  | .bool b => inferInstanceAs (Decidable (P (.bool b)))
  | .number n => inferInstanceAs (Decidable (P (.number n)))
  | .string s => inferInstanceAs (Decidable (P (.string s)))

def decideEverywhereItems : ∀ items, Decidable (EverywhereItems P items)
  | [] => .isTrue trivial
  | v :: r =>
    have := decideEverywhere v
    have := decideEverywhereItems r
    inferInstanceAs (Decidable (Everywhere P v ∧ EverywhereItems P r))

def decideEverywhereMembers : ∀ members, Decidable (EverywhereMembers P members)
  | [] => .isTrue trivial
  | (_, v) :: r =>
    have := decideEverywhere v
    have := decideEverywhereMembers r
    inferInstanceAs (Decidable (Everywhere P v ∧ EverywhereMembers P r))

end

instance : DecidablePred (Everywhere P) :=
  decideEverywhere

end Decide

theorem everywhere_array_iff {items : List Value} :
    Everywhere P (.array items) ↔ P (.array items) ∧ ∀ v ∈ items, Everywhere P v := by
  have hitems : EverywhereItems P items ↔ ∀ v ∈ items, Everywhere P v := by
    induction items with
    | nil => simp [EverywhereItems]
    | cons v r ih => simp [EverywhereItems, ih]
  rw [Everywhere, hitems]

theorem everywhere_object_iff {ms : Members} :
    Everywhere P (.object ms) ↔ P (.object ms) ∧ ∀ m ∈ ms, Everywhere P m.2 := by
  have hmembers : EverywhereMembers P ms ↔ ∀ m ∈ ms, Everywhere P m.2 := by
    induction ms with
    | nil => simp [EverywhereMembers]
    | cons m r ih => simp [EverywhereMembers, ih]
  rw [Everywhere, hmembers]

end Everywhere

end Value
end SelectiveDisclosure.Json
