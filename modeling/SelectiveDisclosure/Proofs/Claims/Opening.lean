import SelectiveDisclosure.Claims.Revealing
import SelectiveDisclosure.Proofs.Json.Records
import SelectiveDisclosure.Proofs.Pointer.Ancestry

/-!
# Openings

An opening is the tree that a walk goes through: a value with the values of its disclosures in it,
where each disclosed part carries its digest and the digests without a disclosure are kept beside
it. `Opens` says that a value with digests opens to such a tree when each digest in the tree
stands for what is disclosed there.
-/

set_option autoImplicit false

namespace SelectiveDisclosure.Reveal

open Json

inductive Cell (α : Type) where
  | clear (a : α)
  | disclosed (digest : String) (a : α)
  | withheld (digest : String)

/-- The digests beside an object are those of its members that are not disclosed. -/
inductive Opening where
  | leaf (v : Value)
  | array (cells : List (Cell Opening))
  | object (withheld : List String) (members : List (String × Option String × Opening))

/-! ## Members with the digests that disclosed them -/

section Slots
variable {α : Type}

def clearOf (slots : List (String × Option String × α)) : List (String × α) :=
  slots.filterMap fun s => if s.2.1.isNone then some (s.1, s.2.2) else none

def markedOf (slots : List (String × Option String × α)) : List (String × Option String × α) :=
  slots.filter fun s => s.2.1.isSome

def marksOf (slots : List (String × Option String × α)) : List String :=
  slots.filterMap fun s => s.2.1

def markPaths (slots : List (String × Option String × α)) : List (String × List String) :=
  slots.filterMap fun s => s.2.1.map fun g => (g, [s.1])

@[simp]
theorem clearOf_cons_none (k : String) (a : α) (slots : List (String × Option String × α)) :
    clearOf ((k, none, a) :: slots) = (k, a) :: clearOf slots := rfl

@[simp]
theorem clearOf_cons_some (k g : String) (a : α) (slots : List (String × Option String × α)) :
    clearOf ((k, some g, a) :: slots) = clearOf slots := rfl

@[simp]
theorem marksOf_cons_none (k : String) (a : α) (slots : List (String × Option String × α)) :
    marksOf ((k, none, a) :: slots) = marksOf slots := rfl

@[simp]
theorem marksOf_cons_some (k g : String) (a : α) (slots : List (String × Option String × α)) :
    marksOf ((k, some g, a) :: slots) = g :: marksOf slots := rfl

@[simp]
theorem markPaths_cons_none (k : String) (a : α) (slots : List (String × Option String × α)) :
    markPaths ((k, none, a) :: slots) = markPaths slots := rfl

@[simp]
theorem markPaths_cons_some (k g : String) (a : α) (slots : List (String × Option String × α)) :
    markPaths ((k, some g, a) :: slots) = (g, [k]) :: markPaths slots := rfl

theorem clearOf_append (as bs : List (String × Option String × α)) :
    clearOf (as ++ bs) = clearOf as ++ clearOf bs :=
  List.filterMap_append

theorem clearOf_map (ms : List (String × α)) :
    clearOf (ms.map fun m => (m.1, (none : Option String), m.2)) = ms := by
  rw [clearOf, List.filterMap_map]
  exact List.filterMap_some

theorem mem_clearOf {slots : List (String × Option String × α)} {s : String × Option String × α}
    (hs : s ∈ slots) (h : s.2.1 = none) : (s.1, s.2.2) ∈ clearOf slots :=
  List.mem_filterMap.2 ⟨s, hs, by simp [h]⟩

theorem mem_marksOf {slots : List (String × Option String × α)} {s : String × Option String × α}
    (hs : s ∈ slots) {g : String} (h : s.2.1 = some g) : g ∈ marksOf slots :=
  List.mem_filterMap.2 ⟨s, hs, h⟩

theorem markPaths_fst (slots : List (String × Option String × α)) :
    (markPaths slots).map Prod.fst = marksOf slots := by
  induction slots with
  | nil => rfl
  | cons s r ih =>
    obtain ⟨k, mark, a⟩ := s
    cases mark <;> simp [ih]

theorem markPaths_markedOf (slots : List (String × Option String × α)) :
    markPaths (markedOf slots) = markPaths slots := by
  induction slots with
  | nil => rfl
  | cons s r ih =>
    obtain ⟨k, mark, a⟩ := s
    cases mark with
    | none => exact ih
    | some g => simpa [markedOf] using ih

theorem perm_clearOf_markedOf (slots : List (String × Option String × α)) :
    slots.Perm ((clearOf slots).map (fun m => (m.1, none, m.2)) ++ markedOf slots) := by
  induction slots with
  | nil => exact List.Perm.refl _
  | cons s r ih =>
    obtain ⟨k, mark, a⟩ := s
    cases mark with
    | none => exact ih.cons _
    | some g => exact (ih.cons _).trans List.perm_middle.symm

theorem ascending_clearOf {slots : List (String × Option String × α)}
    (h : Members.Ascending slots) : Members.Ascending (clearOf slots) := by
  rw [Members.Ascending, clearOf, List.pairwise_filterMap]
  refine h.imp fun {a b} hab x hx y hy => ?_
  split at hx <;> split at hy <;> simp_all
  subst hx hy
  exact hab

end Slots

def under (token : String) (e : String × List String) : String × List String :=
  (e.1, token :: e.2)

namespace Opening

mutual

/-- The value with everything that is disclosed in it. -/
def value : Opening → Value
  | .leaf v => v
  | .array cells => .array (cellValues cells)
  | .object _ members => .object (memberValues members)

def cellValues : List (Cell Opening) → List Value
  | [] => []
  | .clear o :: r => value o :: cellValues r
  | .disclosed _ o :: r => value o :: cellValues r
  | .withheld _ :: r => cellValues r

def memberValues : List (String × Option String × Opening) → List (String × Value)
  | [] => []
  | (k, _, o) :: r => (k, value o) :: memberValues r

end

mutual

def digests : Opening → List String
  | .leaf _ => []
  | .array cells => cellDigests cells
  | .object withheld members => (marksOf members ++ withheld) ++ memberDigests members

def cellDigests : List (Cell Opening) → List String
  | [] => []
  | .clear o :: r => digests o ++ cellDigests r
  | .disclosed g o :: r => g :: digests o ++ cellDigests r
  | .withheld g :: r => g :: cellDigests r

def memberDigests : List (String × Option String × Opening) → List String
  | [] => []
  | (_, _, o) :: r => digests o ++ memberDigests r

end

mutual

/-- The digests with a disclosure, each with the path to what it discloses. -/
def paths : Opening → List (String × List String)
  | .leaf _ => []
  | .array cells => cellPaths 0 cells
  | .object _ members => markPaths members ++ memberPaths members

def cellPaths : Nat → List (Cell Opening) → List (String × List String)
  | _, [] => []
  | i, .clear o :: r => (paths o).map (under (Pointer.indexText i)) ++ cellPaths (i + 1) r
  | i, .disclosed g o :: r =>
    (g, [Pointer.indexText i]) :: (paths o).map (under (Pointer.indexText i)) ++ cellPaths (i + 1) r
  | i, .withheld _ :: r => cellPaths i r

def memberPaths : List (String × Option String × Opening) → List (String × List String)
  | [] => []
  | (k, _, o) :: r => (paths o).map (under k) ++ memberPaths r

end

def placesAt (place : Pointer) (paths : List (String × List String)) : List (String × Pointer) :=
  paths.map fun e => (e.1, place.pushAll e.2)

theorem placesAt_append (place : Pointer) (as bs : List (String × List String)) :
    placesAt place (as ++ bs) = placesAt place as ++ placesAt place bs :=
  List.map_append

theorem placesAt_under (place : Pointer) (token : String) (es : List (String × List String)) :
    placesAt place (es.map (under token)) = placesAt (place.push token) es := by
  simp [placesAt, under]

theorem names_placesAt (place : Pointer) (es : List (String × List String)) :
    Members.names (placesAt place es) = es.map Prod.fst := by
  simp [Members.names, placesAt, Function.comp_def]

end Opening

/-! ## Values and their openings -/

def digestTexts? (ms : Members) : Option (List String) :=
  match Members.get? ms Digests.membersName with
  | none => some []
  | some v => v.strings?

theorem digestTexts?_eq_some_iff {ms : Members} {ds : List String} :
    digestTexts? ms = some ds ↔
      Members.get? ms Digests.membersName = none ∧ ds = [] ∨
      Members.get? ms Digests.membersName = some (.array (ds.map .string)) := by
  unfold digestTexts?
  cases Members.get? ms Digests.membersName with
  | none => simp [eq_comm]
  | some v => simp [Value.strings?_eq_some_iff]

/-- The members of an object that are no bookkeeping. -/
def own {α : Type} (ms : List (String × α)) : List (String × α) :=
  Members.erase (Members.erase ms Payload.algorithmName) Digests.membersName

theorem mem_own_iff {α : Type} {ms : List (String × α)} {m : String × α} :
    m ∈ own ms ↔ m ∈ ms ∧ m.1 ≠ Digests.membersName ∧ m.1 ≠ Payload.algorithmName := by
  rw [own, Members.mem_erase, Members.mem_erase, and_assoc, and_comm (a := m.1 ≠ _)]

def IsScalar : Value → Prop
  | .array _ => False
  | .object _ => False
  | _ => True

theorem isScalar_of_depth_eq_zero {v : Value} (h : v.depth = 0) : IsScalar v := by
  cases v <;> trivial

section Opens
variable (D : String → Concealed → Prop) (H : String → Prop)

mutual

/-- A value opens to a tree, `D` telling what digests stand for and `H` which stand for nothing. -/
def Opens : Opening → Value → Prop
  | .leaf u, v => v = u ∧ IsScalar v
  | .array cells, v => ∃ items, v = .array items ∧ OpensItems cells items
  | .object withheld members, v =>
    ∃ ms ds slots, v = .object ms ∧ digestTexts? ms = some ds ∧
      clearOf slots = own ms ∧ Members.Ascending slots ∧
      ds.Perm (marksOf slots ++ withheld) ∧ (∀ g ∈ withheld, H g) ∧ OpensMembers members slots

def OpensItems : List (Cell Opening) → List Value → Prop
  | [], items => items = []
  | .clear o :: r, items =>
    ∃ v rest, items = v :: rest ∧ Digests.placeholder? v = none ∧ Opens o v ∧ OpensItems r rest
  | .disclosed g o :: r, items =>
    ∃ v rest, items = v :: rest ∧ Digests.placeholder? v = some g ∧
      (∃ u, D g (.item u) ∧ Opens o u) ∧ OpensItems r rest
  | .withheld g :: r, items =>
    ∃ v rest, items = v :: rest ∧ Digests.placeholder? v = some g ∧ H g ∧ OpensItems r rest

def OpensMembers :
    List (String × Option String × Opening) → List (String × Option String × Value) → Prop
  | [], slots => slots = []
  | (k, mark, o) :: r, slots =>
    ∃ v rest, slots = (k, mark, v) :: rest ∧ (∀ g, mark = some g → D g (.member k v)) ∧
      Opens o v ∧ OpensMembers r rest

end

variable {D H}

theorem eq_leaf_of_opens {o : Opening} {v : Value} (hv : IsScalar v) (h : Opens D H o v) :
    o = .leaf v := by
  cases o with
  | leaf u => rw [h.1]
  | array cells =>
    obtain ⟨items, rfl, -⟩ := h
    exact hv.elim
  | object withheld members =>
    obtain ⟨ms, -, -, rfl, -⟩ := h
    exact hv.elim

theorem exists_array_of_opens {o : Opening} {items : List Value}
    (h : Opens D H o (.array items)) : ∃ cells, o = .array cells ∧ OpensItems D H cells items := by
  cases o with
  | leaf u => exact h.2.elim
  | array cells =>
    obtain ⟨_, heq, hcells⟩ := h
    cases heq
    exact ⟨cells, rfl, hcells⟩
  | object withheld members =>
    obtain ⟨ms, -, -, heq, -⟩ := h
    cases heq

theorem exists_object_of_opens {o : Opening} {ms : Members} (h : Opens D H o (.object ms)) :
    ∃ withheld members, o = .object withheld members := by
  cases o with
  | leaf u => exact h.2.elim
  | array cells =>
    obtain ⟨items, heq, -⟩ := h
    cases heq
  | object withheld members => exact ⟨withheld, members, rfl⟩

theorem names_of_opensMembers {members : List (String × Option String × Opening)}
    {slots : List (String × Option String × Value)} (h : OpensMembers D H members slots) :
    Members.names slots = Members.names members := by
  induction members generalizing slots with
  | nil => rw [OpensMembers] at h; subst h; rfl
  | cons m r ih =>
    obtain ⟨k, mark, o⟩ := m
    obtain ⟨v, rest, rfl, -, -, hr⟩ := h
    simpa [Members.names] using ih hr

theorem marksOf_of_opensMembers {members : List (String × Option String × Opening)}
    {slots : List (String × Option String × Value)} (h : OpensMembers D H members slots) :
    marksOf slots = marksOf members ∧ markPaths slots = markPaths members := by
  induction members generalizing slots with
  | nil => rw [OpensMembers] at h; subst h; exact ⟨rfl, rfl⟩
  | cons m r ih =>
    obtain ⟨k, mark, o⟩ := m
    obtain ⟨v, rest, rfl, -, -, hr⟩ := h
    obtain ⟨hm, hp⟩ := ih hr
    cases mark <;> simp [hm, hp]

theorem disclosed_of_opensMembers {members : List (String × Option String × Opening)}
    {slots : List (String × Option String × Value)} (h : OpensMembers D H members slots) :
    ∀ s ∈ slots, ∀ g, s.2.1 = some g → D g (.member s.1 s.2.2) := by
  induction members generalizing slots with
  | nil => rw [OpensMembers] at h; simp [h]
  | cons m r ih =>
    obtain ⟨k, mark, o⟩ := m
    obtain ⟨v, rest, rfl, hd, -, hr⟩ := h
    intro s hs
    rcases List.mem_cons.1 hs with rfl | hs
    · exact hd
    · exact ih hr s hs

theorem ascending_iff_of_names {α β : Type} {as : List (String × α)} {bs : List (String × β)}
    (h : Members.names as = Members.names bs) : Members.Ascending as ↔ Members.Ascending bs := by
  have hm {γ : Type} (cs : List (String × γ)) :
      Members.Ascending cs ↔ (Members.names cs).Pairwise fun a b => a < b := by
    rw [Members.Ascending, Members.names, List.pairwise_map]
  rw [hm, hm, h]

end Opens

end SelectiveDisclosure.Reveal
