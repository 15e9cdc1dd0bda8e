import Mathlib.Data.List.Basic
import SelectiveDisclosure.Proofs.Claims.Opening
import SelectiveDisclosure.Proofs.Token.Digests

/-!
# References to disclosures

A digest refers to a disclosed member from the array `_sd` of an object, and to a disclosed item
from a placeholder. What a walk meets in a value before it opens anything are these references, at
any depth except below `_sd_alg`.
-/

set_option autoImplicit false

namespace SelectiveDisclosure

open Json Reveal

/-- A digest where it stands: among those of an object, or in place of an item. -/
inductive Reference where
  | member (digest : String)
  | item (digest : String)

namespace Reference

def digest : Reference → String
  | .member g => g
  | .item g => g

def ofConcealed (digest : String) : Concealed → Reference
  | .member _ _ => .member digest
  | .item _ => .item digest

@[simp]
theorem digest_ofConcealed (g : String) (c : Concealed) : (ofConcealed g c).digest = g := by
  cases c <;> rfl

mutual

def inValue : Value → List Reference
  | .array items => inItems items
  | .object members => inMembers members
  | _ => []

def inItems : List Value → List Reference
  | [] => []
  | v :: r =>
    match Digests.placeholder? v with
    | some g => .item g :: inItems r
    | none => inValue v ++ inItems r

def inMembers : List (String × Value) → List Reference
  | [] => []
  | (k, v) :: r =>
    (if k = Digests.membersName then (Digests.textsOf v).map .member
      else if k = Payload.algorithmName then [] else inValue v) ++ inMembers r

end

def ofMember (m : String × Value) : List Reference :=
  if m.1 = Digests.membersName then (Digests.textsOf m.2).map .member
  else if m.1 = Payload.algorithmName then [] else inValue m.2

theorem inItems_of_placeholder {v : Value} {g : String} (h : Digests.placeholder? v = some g)
    (r : List Value) : inItems (v :: r) = .item g :: inItems r := by
  rw [inItems, h]

theorem inItems_of_clear {v : Value} (h : Digests.placeholder? v = none) (r : List Value) :
    inItems (v :: r) = inValue v ++ inItems r := by
  rw [inItems, h]

theorem inMembers_eq_flatMap (ms : List (String × Value)) :
    inMembers ms = ms.flatMap ofMember := by
  induction ms with
  | nil => rfl
  | cons m r ih => rw [inMembers, List.flatMap_cons, ofMember, ih]

theorem ofMember_digests (ds : List String) :
    ofMember (Digests.membersName, .array (ds.map .string)) = ds.map .member := by
  rw [ofMember, if_pos rfl, Digests.textsOf_strings]

theorem ofMember_of_mem_own {ms : Members} {m : String × Value} (h : m ∈ own ms) :
    ofMember m = inValue m.2 := by
  obtain ⟨-, hsd, halg⟩ := mem_own_iff.1 h
  rw [ofMember, if_neg hsd, if_neg halg]

theorem flatMap_erase_algorithm (ms : List (String × Value)) :
    (Members.erase ms Payload.algorithmName).flatMap ofMember = ms.flatMap ofMember := by
  induction ms with
  | nil => rfl
  | cons m r ih =>
    rw [List.flatMap_cons, ← ih, Members.erase, List.filter_cons]
    by_cases hm : m.1 = Payload.algorithmName
    · have hnone : ofMember m = [] := by
        have hne : Payload.algorithmName ≠ Digests.membersName := by decide
        rw [ofMember, hm, if_neg hne, if_pos rfl]
      simp [hm, hnone, Members.erase]
    · simp [hm, Members.erase]

/-! ## References of an object -/

section Object
variable {ms : Members} {ds : List String} (hds : digestTexts? ms = some ds)
include hds

theorem member_mem_inMembers {g : String} (hg : g ∈ ds) : .member g ∈ inMembers ms := by
  rw [inMembers_eq_flatMap, List.mem_flatMap]
  rcases digestTexts?_eq_some_iff.1 hds with ⟨-, rfl⟩ | hget
  · cases hg
  · refine ⟨_, Members.mem_of_get? hget, ?_⟩
    rw [ofMember_digests]
    exact List.mem_map.2 ⟨g, hg, rfl⟩

omit hds in
theorem mem_inMembers_of_own {m : String × Value} (hm : m ∈ own ms) {r : Reference}
    (hr : r ∈ inValue m.2) : r ∈ inMembers ms := by
  rw [inMembers_eq_flatMap, List.mem_flatMap]
  refine ⟨m, (mem_own_iff.1 hm).1, ?_⟩
  rw [ofMember_of_mem_own hm]
  exact hr

theorem perm_inMembers (h : Members.Ascending ms) :
    (inMembers ms).Perm (ds.map .member ++ (own ms).flatMap fun m => inValue m.2) := by
  have hown : (own ms).flatMap (fun m => inValue m.2) =
      (Members.erase ms Digests.membersName).flatMap ofMember := by
    rw [← flatMap_erase_algorithm, Members.erase_comm]
    exact List.flatMap_congr fun m hm => (ofMember_of_mem_own hm).symm
  rw [inMembers_eq_flatMap, hown]
  rcases digestTexts?_eq_some_iff.1 hds with ⟨hnone, rfl⟩ | hget
  · rw [Members.erase_of_notMem (Members.get?_eq_none_iff.1 hnone)]
    exact List.Perm.refl _
  · apply ((Members.perm_of_get? h hget).flatMap_right ofMember).trans
    rw [List.flatMap_cons, ofMember_digests]

end Object

end Reference

end SelectiveDisclosure
