import SelectiveDisclosure.Proofs.Claims.Bookkeeping
import SelectiveDisclosure.Proofs.Claims.Concealment

/-!
# Clear members

No disclosure takes the place of a member that stands in the payload in clear text: it is revealed
under its name, with what is disclosed inside it. A value without reserved names has no digests, so
nothing is.
-/

set_option autoImplicit false

namespace SelectiveDisclosure

open Json

namespace Reveal

section Undisclosed
variable {D : String → Concealed → Prop} {H : String → Prop}

theorem clearOf_of_marksOf_eq_nil {α : Type} {slots : List (String × Option String × α)}
    (h : marksOf slots = []) : clearOf slots = slots.map fun s => (s.1, s.2.2) := by
  induction slots with
  | nil => rfl
  | cons s r ih =>
    obtain ⟨k, mark, a⟩ := s
    cases mark with
    | none => rw [clearOf_cons_none, ih h, List.map_cons]
    | some g => cases h

theorem cellValues_of_opensItems {cells : List (Cell Opening)} {items : List Value}
    (h : OpensItems D H cells items) (hclear : ∀ v ∈ items, Digests.placeholder? v = none)
    (hsame : ∀ v ∈ items, ∀ o, Opens D H o v → o.value = v) :
    Opening.cellValues cells = items := by
  induction cells generalizing items with
  | nil => exact h.symm
  | cons cell r ih =>
    cases cell with
    | clear o =>
      obtain ⟨v, rest, rfl, -, ho, hr⟩ := h
      obtain ⟨-, hclear⟩ := List.forall_mem_cons.1 hclear
      obtain ⟨hv, hsame⟩ := List.forall_mem_cons.1 hsame
      rw [Opening.cellValues, hv o ho, ih hr hclear hsame]
    | disclosed g o =>
      obtain ⟨v, rest, rfl, hg, -, -⟩ := h
      rw [hclear v List.mem_cons_self] at hg
      cases hg
    | withheld g =>
      obtain ⟨v, rest, rfl, hg, -, -⟩ := h
      rw [hclear v List.mem_cons_self] at hg
      cases hg

theorem memberValues_of_opensMembers {members : List (String × Option String × Opening)}
    {slots : List (String × Option String × Value)} (h : OpensMembers D H members slots)
    (hsame : ∀ s ∈ slots, ∀ o, Opens D H o s.2.2 → o.value = s.2.2) :
    Opening.memberValues members = slots.map fun s => (s.1, s.2.2) := by
  induction members generalizing slots with
  | nil =>
    rw [OpensMembers] at h
    rw [h]
    rfl
  | cons m r ih =>
    obtain ⟨k, mark, o⟩ := m
    obtain ⟨v, rest, rfl, -, ho, hr⟩ := h
    obtain ⟨hv, hsame⟩ := List.forall_mem_cons.1 hsame
    rw [Opening.memberValues, hv o ho, ih hr hsame, List.map_cons]

theorem placeholder?_of_reservedIn? {v : Value} (h : Conceal.reservedIn? v = none) :
    Digests.placeholder? v = none := by
  cases hg : Digests.placeholder? v with
  | none => rfl
  | some g =>
    rw [Digests.eq_placeholder hg] at h
    cases h

theorem value_of_opens_of_reservedIn? {o : Opening} {v : Value} (h : Opens D H o v)
    (hfree : Conceal.reservedIn? v = none) : o.value = v := by
  induction v using Value.induct generalizing o with
  | scalar v hdepth =>
    obtain rfl := eq_leaf_of_opens (isScalar_of_depth_eq_zero hdepth) h
    rfl
  | array items ih =>
    rw [Conceal.reservedIn?, Conceal.reservedInItems?_eq_none_iff] at hfree
    obtain ⟨cells, rfl, hcells⟩ := exists_array_of_opens h
    rw [Opening.value, cellValues_of_opensItems hcells
      (fun v hv => placeholder?_of_reservedIn? (hfree v hv))
      fun v hv _ ho => ih v hv ho (hfree v hv)]
  | object ms ih =>
    rw [Conceal.reservedIn?, Conceal.reservedInMembers?_eq_none_iff] at hfree
    obtain ⟨withheld, members, rfl⟩ := exists_object_of_opens h
    obtain ⟨_, ds, slots, heq, htexts, hclear, -, hperm, -, hmembers⟩ := h
    cases heq
    have habsent {name : String} : isReserved name = true → name ∉ Members.names ms :=
      Conceal.notMem_names_of_isReserved fun m hm => (hfree m hm).1
    have hown : own ms = ms := by
      rw [own, Members.erase_of_notMem (habsent rfl), Members.erase_of_notMem (habsent rfl)]
    -- Without the member `_sd` there are no digests, so no member is disclosed.
    have hmarks : marksOf slots = [] := by
      rw [digestTexts?, Members.get?_eq_none_iff.2 (habsent rfl)] at htexts
      obtain rfl := Option.some.inj htexts
      exact (List.append_eq_nil_iff.1 hperm.nil_eq.symm).1
    rw [clearOf_of_marksOf_eq_nil hmarks, hown] at hclear
    rw [Opening.value, memberValues_of_opensMembers hmembers, hclear]
    intro s hs o ho
    have hm : (s.1, s.2.2) ∈ ms := hclear ▸ List.mem_map_of_mem hs
    exact ih _ hm ho (hfree _ hm).2

end Undisclosed

theorem get?_value_of_clear {D : String → Concealed → Prop} {H : String → Prop} {o : Opening}
    {ms ms' : Members} {name : String} {v : Value} (h : Opens D H o (.object ms))
    (hvalue : o.value = .object ms') (hname : isReserved name = false)
    (hget : Members.get? ms name = some v) :
    ∃ u, Opens D (fun _ => True) u v ∧ Members.get? ms' name = some u.value := by
  have hopens : Opens D (fun _ => True) o (.object ms) :=
    o.opens_of_hidden h fun _ _ _ => trivial
  obtain ⟨withheld, members, rfl⟩ := exists_object_of_opens hopens
  obtain ⟨ds, ma, mb, u, as, bs, rfl, hm⟩ := exists_memberAmong hopens hget hname
  cases hvalue
  refine ⟨u, hm.here, Members.get?_of_mem ?_ ?_⟩
  · have hnames : Members.names (Opening.memberValues (ma ++ (name, none, u) :: mb)) =
        Members.names (as ++ (name, (none : Option String), v) :: bs) := by
      have hbefore := names_of_opensMembers hm.before
      have hbehind := names_of_opensMembers hm.behind
      rw [names_memberValues]
      simp only [Members.names, List.map_append, List.map_cons] at hbefore hbehind ⊢
      rw [hbefore, hbehind]
    exact (ascending_iff_of_names hnames).2 hm.ascending
  · rw [Opening.memberValues_append, Opening.memberValues]
    exact List.mem_append_right _ List.mem_cons_self

end Reveal

open Reveal

namespace Payload
variable {f : DigestFunction} {p : Payload} {ds : List Disclosure} {claims : Members}
  {ps : List Pointer} {name : String} {v : Value}

/-- A clear member without reserved names in it is revealed as it is, whatever the disclosures
are. -/
theorem get?_of_reveal_of_reservedIn? (hp : Value.Sorted (.object p.claims))
    (hds : ∀ d ∈ ds, Value.Sorted d.concealed.value) (h : p.reveal f ds = .ok (claims, ps))
    (hname : isReserved name = false) (hget : Members.get? p.claims name = some v)
    (hv : Conceal.reservedIn? v = none) : Members.get? claims name = some v := by
  obtain ⟨o, ho, hclaims⟩ := exists_reveals hp hds h
  obtain ⟨u, hu, hrevealed⟩ := get?_value_of_clear ho.opens hclaims hname hget
  rw [hrevealed, value_of_opens_of_reservedIn? hu hv]

theorem get?_of_reveal_of_isScalar (hp : Value.Sorted (.object p.claims))
    (hds : ∀ d ∈ ds, Value.Sorted d.concealed.value) (h : p.reveal f ds = .ok (claims, ps))
    (hname : isReserved name = false) (hget : Members.get? p.claims name = some v)
    (hv : IsScalar v) : Members.get? claims name = some v := by
  have hfree : Conceal.reservedIn? v = none := by
    cases v <;> first | rfl | exact hv.elim
  exact get?_of_reveal_of_reservedIn? hp hds h hname hget hfree

end Payload

end SelectiveDisclosure
