import SelectiveDisclosure.Proofs.Json.Decimals
import SelectiveDisclosure.Proofs.Json.Records

/-!
# Values read again

Written and read again, a value keeps its shape, its names and its strings, and each number becomes
what its text reads as.
-/

set_option autoImplicit false

namespace SelectiveDisclosure.Json

namespace Number

/-- What the text of a number reads as. -/
def reread (n : Number) : Number :=
  ((read? n.chars).map Prod.fst).getD n

theorem read?_chars (n : Number) : read? n.chars = some (n.reread, []) := by
  obtain ⟨m, hm⟩ := exists_read?_chars n
  rw [reread, hm]
  rfl

theorem ReadsBack.reread {n : Number} (h : n.ReadsBack) : n.reread = n := by
  rw [Number.reread, h]
  rfl

end Number

namespace Value

mutual

def reread : Value → Value
  | .number n => .number n.reread
  | .array items => .array (rereadItems items)
  | .object members => .object (rereadMembers members)
  | v => v

def rereadItems : List Value → List Value
  | [] => []
  | v :: r => reread v :: rereadItems r

def rereadMembers : List (String × Value) → List (String × Value)
  | [] => []
  | (k, v) :: r => (k, reread v) :: rereadMembers r

end

theorem rereadItems_eq_map (items : List Value) : rereadItems items = items.map reread := by
  induction items with
  | nil => rfl
  | cons v r ih => rw [rereadItems, ih, List.map_cons]

theorem rereadMembers_eq_map (ms : Members) :
    rereadMembers ms = ms.map fun m => (m.1, reread m.2) := by
  induction ms with
  | nil => rfl
  | cons m r ih => rw [rereadMembers, ih, List.map_cons]

theorem names_rereadMembers (ms : Members) :
    Members.names (rereadMembers ms) = Members.names ms := by
  rw [rereadMembers_eq_map, Members.names_map]

theorem get?_rereadMembers (ms : Members) (name : String) :
    Members.get? (rereadMembers ms) name = (Members.get? ms name).map reread := by
  rw [rereadMembers_eq_map, Members.get?_map]

/-! ## Values that are read back -/

mutual

def NumbersReadBack : Value → Prop
  | .number n => n.ReadsBack
  | .array items => ItemsReadBack items
  | .object members => MembersReadBack members
  | _ => True

def ItemsReadBack : List Value → Prop
  | [] => True
  | v :: r => NumbersReadBack v ∧ ItemsReadBack r

def MembersReadBack : List (String × Value) → Prop
  | [] => True
  | (_, v) :: r => NumbersReadBack v ∧ MembersReadBack r

end

theorem itemsReadBack_iff {items : List Value} :
    ItemsReadBack items ↔ ∀ v ∈ items, NumbersReadBack v := by
  induction items with
  | nil => simp [ItemsReadBack]
  | cons v r ih => simp [ItemsReadBack, ih]

theorem membersReadBack_iff {ms : Members} :
    MembersReadBack ms ↔ ∀ m ∈ ms, NumbersReadBack m.2 := by
  induction ms with
  | nil => simp [MembersReadBack]
  | cons m r ih => simp [MembersReadBack, ih]

theorem rereadMembers_eq_self {ms : Members} (h : ∀ m ∈ ms, m.2.reread = m.2) :
    rereadMembers ms = ms := by
  rw [rereadMembers_eq_map, List.map_congr_left (g := id), List.map_id]
  intro m hm
  rw [h m hm]
  rfl

theorem reread_eq_self {v : Value} (h : v.NumbersReadBack) : v.reread = v := by
  induction v using induct with
  | scalar v hv =>
    cases v with
    | number n => rw [reread, Number.ReadsBack.reread h]
    | array items => cases hv
    | object ms => cases hv
    | _ => rfl
  | array items ih =>
    rw [NumbersReadBack, itemsReadBack_iff] at h
    rw [reread, rereadItems_eq_map, List.map_congr_left fun v hv => ih v hv (h v hv), List.map_id']
  | object ms ih =>
    rw [NumbersReadBack, membersReadBack_iff] at h
    rw [reread, rereadMembers_eq_self fun m hm => ih m hm (h m hm)]

theorem sorted_reread {v : Value} (h : Sorted v) : Sorted v.reread := by
  induction v using induct with
  | scalar v hv =>
    cases v with
    | array items => cases hv
    | object ms => cases hv
    | _ => trivial
  | array items ih =>
    rw [sorted_array_iff] at h
    rw [reread, sorted_array_iff, rereadItems_eq_map]
    intro u hu
    obtain ⟨v, hv, rfl⟩ := List.mem_map.1 hu
    exact ih v hv (h v hv)
  | object ms ih =>
    rw [sorted_object_iff] at h
    rw [reread, sorted_object_iff, rereadMembers_eq_map]
    refine ⟨List.pairwise_map.2 h.1, fun u hu => ?_⟩
    obtain ⟨m, hm, rfl⟩ := List.mem_map.1 hu
    exact ih m hm (h.2 m hm)

end Value

end SelectiveDisclosure.Json
