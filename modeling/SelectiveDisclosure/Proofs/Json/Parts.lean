import SelectiveDisclosure.Proofs.Json.Rereading
import SelectiveDisclosure.Proofs.Pointer.Ancestry

/-!
# Parts of values

Each part of a value has a path, the names and indices that lead to it. The parts of a part are
parts of the value, and a value is as deep as its deepest part lies.
-/

set_option autoImplicit false

namespace SelectiveDisclosure.Json.Value

def under (token : String) (q : List String × Value) : List String × Value :=
  (token :: q.1, q.2)

mutual

/-- All parts of a value with their paths, the value itself first. -/
def parts : Value → List (List String × Value)
  | .array items => ([], .array items) :: partsOfItems 0 items
  | .object ms => ([], .object ms) :: partsOfMembers ms
  | v => [([], v)]

def partsOfItems : Nat → List Value → List (List String × Value)
  | _, [] => []
  | i, v :: r => (parts v).map (under (Pointer.indexText i)) ++ partsOfItems (i + 1) r

def partsOfMembers : List (String × Value) → List (List String × Value)
  | [] => []
  | (k, v) :: r => (parts v).map (under k) ++ partsOfMembers r

end

variable {v w : Value} {path : List String}

theorem parts_of_depth_eq_zero (h : v.depth = 0) : v.parts = [([], v)] := by
  cases v <;> first | rfl | exact absurd h (by simp [depth])

theorem self_mem_parts (v : Value) : ([], v) ∈ v.parts := by
  cases v <;> exact List.mem_cons_self

theorem mem_under_iff {token : String} {l : List (List String × Value)} :
    (path, w) ∈ l.map (under token) ↔ ∃ rel, path = token :: rel ∧ (rel, w) ∈ l := by
  rw [List.mem_map]
  constructor
  · rintro ⟨⟨rel, u⟩, hm, heq⟩
    cases heq
    exact ⟨rel, rfl, hm⟩
  · rintro ⟨rel, rfl, hm⟩
    exact ⟨_, hm, rfl⟩

theorem mem_partsOfItems_iff {i : Nat} {items : List Value} :
    (path, w) ∈ partsOfItems i items ↔ ∃ j v rel, items[j]? = some v ∧
      path = Pointer.indexText (i + j) :: rel ∧ (rel, w) ∈ v.parts := by
  induction items generalizing i with
  | nil => simp [partsOfItems]
  | cons v r ih =>
    rw [partsOfItems, List.mem_append, mem_under_iff, ih]
    constructor
    · rintro (⟨rel, rfl, hm⟩ | ⟨j, u, rel, hj, rfl, hm⟩)
      · exact ⟨0, v, rel, rfl, rfl, hm⟩
      · exact ⟨j + 1, u, rel, hj, by rw [Nat.add_right_comm, Nat.add_assoc], hm⟩
    · rintro ⟨j, u, rel, hj, rfl, hm⟩
      cases j with
      | zero =>
        cases hj
        exact .inl ⟨rel, rfl, hm⟩
      | succ j => exact .inr ⟨j, u, rel, hj, by rw [Nat.add_right_comm, Nat.add_assoc], hm⟩

theorem mem_partsOfMembers_iff {ms : List (String × Value)} :
    (path, w) ∈ partsOfMembers ms ↔ ∃ k v rel, (k, v) ∈ ms ∧ path = k :: rel ∧
      (rel, w) ∈ v.parts := by
  induction ms with
  | nil => simp [partsOfMembers]
  | cons m r ih =>
    obtain ⟨k, v⟩ := m
    rw [partsOfMembers, List.mem_append, mem_under_iff, ih]
    constructor
    · rintro (⟨rel, rfl, hm⟩ | ⟨n, u, rel, hn, rfl, hm⟩)
      · exact ⟨k, v, rel, List.mem_cons_self, rfl, hm⟩
      · exact ⟨n, u, rel, List.mem_cons_of_mem _ hn, rfl, hm⟩
    · rintro ⟨n, u, rel, hn, rfl, hm⟩
      rcases List.mem_cons.1 hn with heq | hn
      · cases heq
        exact .inl ⟨rel, rfl, hm⟩
      · exact .inr ⟨n, u, rel, hn, rfl, hm⟩

theorem mem_parts_array_iff {items : List Value} :
    (path, w) ∈ (Value.array items).parts ↔ path = [] ∧ w = .array items ∨
      ∃ i v rel, items[i]? = some v ∧ path = Pointer.indexText i :: rel ∧ (rel, w) ∈ v.parts := by
  rw [parts, List.mem_cons, Prod.mk.injEq, mem_partsOfItems_iff]
  simp only [Nat.zero_add]

theorem mem_parts_object_iff {ms : Members} :
    (path, w) ∈ (Value.object ms).parts ↔ path = [] ∧ w = .object ms ∨
      ∃ k v rel, (k, v) ∈ ms ∧ path = k :: rel ∧ (rel, w) ∈ v.parts := by
  rw [parts, List.mem_cons, Prod.mk.injEq, mem_partsOfMembers_iff]

theorem mem_parts_item {items : List Value} {i : Nat} (hi : items[i]? = some v)
    (h : (path, w) ∈ v.parts) : (Pointer.indexText i :: path, w) ∈ (Value.array items).parts :=
  mem_parts_array_iff.2 (.inr ⟨i, v, path, hi, rfl, h⟩)

theorem mem_parts_member {ms : Members} {k : String} (hm : (k, v) ∈ ms)
    (h : (path, w) ∈ v.parts) : (k :: path, w) ∈ (Value.object ms).parts :=
  mem_parts_object_iff.2 (.inr ⟨k, v, path, hm, rfl, h⟩)

/-! ## Parts of parts -/

theorem sublist_partsOfItems {items : List Value} {j : Nat} (i : Nat) (hj : items[j]? = some v) :
    (v.parts.map (under (Pointer.indexText (i + j)))).Sublist (partsOfItems i items) := by
  induction items generalizing i j with
  | nil => cases hj
  | cons u r ih =>
    cases j with
    | zero =>
      cases hj
      exact List.sublist_append_left _ _
    | succ j =>
      have hnext := ih (i + 1) hj
      rw [Nat.add_right_comm, Nat.add_assoc] at hnext
      exact hnext.trans (List.sublist_append_right _ _)

theorem sublist_partsOfMembers {ms : List (String × Value)} {k : String} (hm : (k, v) ∈ ms) :
    (v.parts.map (under k)).Sublist (partsOfMembers ms) := by
  induction ms with
  | nil => cases hm
  | cons m r ih =>
    rcases List.mem_cons.1 hm with rfl | hm
    · exact List.sublist_append_left _ _
    · exact (ih hm).trans (List.sublist_append_right _ _)

theorem sublist_parts (h : (path, w) ∈ v.parts) :
    (w.parts.map fun q => (path ++ q.1, q.2)).Sublist v.parts := by
  have hbelow {u : Value} {k : String} {rel : List String}
      (ih : (w.parts.map fun q => (rel ++ q.1, q.2)).Sublist u.parts) :
      (w.parts.map fun q => (k :: rel ++ q.1, q.2)).Sublist (u.parts.map (under k)) := by
    have hmap := ih.map (under k)
    rwa [List.map_map] at hmap
  have hself {u : Value} : (u.parts.map fun q => ([] ++ q.1, q.2)).Sublist u.parts := by
    simp
  induction v using induct generalizing path with
  | scalar v hv =>
    rw [parts_of_depth_eq_zero hv, List.mem_singleton] at h
    cases h
    exact hself
  | array items ih =>
    rcases mem_parts_array_iff.1 h with ⟨rfl, rfl⟩ | ⟨i, u, rel, hi, rfl, hrel⟩
    · exact hself
    · have hitem := sublist_partsOfItems 0 hi
      rw [Nat.zero_add] at hitem
      exact ((hbelow (ih u (List.mem_of_getElem? hi) hrel)).trans hitem).cons _
  | object ms ih =>
    rcases mem_parts_object_iff.1 h with ⟨rfl, rfl⟩ | ⟨k, u, rel, hm, rfl, hrel⟩
    · exact hself
    · exact ((hbelow (ih _ hm hrel)).trans (sublist_partsOfMembers hm)).cons _

theorem mem_parts_append {u : Value} {rel : List String} (h : (path, w) ∈ v.parts)
    (hrel : (rel, u) ∈ w.parts) : (path ++ rel, u) ∈ v.parts :=
  (sublist_parts h).subset (List.mem_map.2 ⟨_, hrel, rfl⟩)

/-! ## Depth -/

theorem depth_add_length_le (h : (path, w) ∈ v.parts) : w.depth + path.length ≤ v.depth := by
  induction v using induct generalizing path with
  | scalar v hv =>
    rw [parts_of_depth_eq_zero hv, List.mem_singleton] at h
    cases h
    exact Nat.le_refl _
  | array items ih =>
    rcases mem_parts_array_iff.1 h with ⟨rfl, rfl⟩ | ⟨i, u, rel, hi, rfl, hrel⟩
    · exact Nat.le_refl _
    · have hle := ih u (List.mem_of_getElem? hi) hrel
      have hu := depthItems_le_iff.1 (Nat.le_refl _) u (List.mem_of_getElem? hi)
      rw [List.length_cons, depth]
      omega
  | object ms ih =>
    rcases mem_parts_object_iff.1 h with ⟨rfl, rfl⟩ | ⟨k, u, rel, hm, rfl, hrel⟩
    · exact Nat.le_refl _
    · have hle := ih _ hm hrel
      have hu := depthMembers_le_iff.1 (Nat.le_refl _) _ hm
      rw [List.length_cons, depth]
      omega

theorem depth_le_of_parts {d : Nat}
    (h : ∀ path w, (path, w) ∈ v.parts → w.depth ≠ 0 → path.length < d) : v.depth ≤ d := by
  induction v using induct generalizing d with
  | scalar v hv => omega
  | array items ih =>
    have hd := h [] _ (self_mem_parts _) (Nat.succ_ne_zero _)
    obtain ⟨e, rfl⟩ := Nat.exists_eq_add_one.2 hd
    refine depth_array_le_iff.2 fun u hu => ih u hu fun path w hw hcontainer => ?_
    obtain ⟨i, hi⟩ := List.mem_iff_getElem?.1 hu
    exact Nat.lt_of_succ_lt_succ (h _ w (mem_parts_item hi hw) hcontainer)
  | object ms ih =>
    have hd := h [] _ (self_mem_parts _) (Nat.succ_ne_zero _)
    obtain ⟨e, rfl⟩ := Nat.exists_eq_add_one.2 hd
    refine depth_object_le_iff.2 fun m hm => ih m hm fun path w hw hcontainer => ?_
    exact Nat.lt_of_succ_lt_succ (h _ w (mem_parts_member hm hw) hcontainer)

/-! ## Numbers -/

theorem numbersReadBack_of_part (hpart : (path, w) ∈ v.parts) (h : v.NumbersReadBack) :
    w.NumbersReadBack := by
  induction v using induct generalizing path with
  | scalar v hv =>
    rw [parts_of_depth_eq_zero hv, List.mem_singleton] at hpart
    cases hpart
    exact h
  | array items ih =>
    rcases mem_parts_array_iff.1 hpart with ⟨-, rfl⟩ | ⟨i, u, rel, hi, -, hrel⟩
    · exact h
    · rw [NumbersReadBack, itemsReadBack_iff] at h
      have hu := List.mem_of_getElem? hi
      exact ih u hu hrel (h u hu)
  | object ms ih =>
    rcases mem_parts_object_iff.1 hpart with ⟨-, rfl⟩ | ⟨k, u, rel, hm, -, hrel⟩
    · exact h
    · rw [NumbersReadBack, membersReadBack_iff] at h
      exact ih _ hm hrel (h _ hm)

end SelectiveDisclosure.Json.Value
