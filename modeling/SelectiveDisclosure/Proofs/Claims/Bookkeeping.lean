import SelectiveDisclosure.Proofs.Claims.Integrity
import SelectiveDisclosure.Proofs.Claims.Steps

/-!
# Bookkeeping in revealed claims

No member of revealed claims is about digests. A placeholder is left exactly by an item that the
walk takes for an object: a disclosed one, which is not looked at as an item again, or one whose own
bookkeeping hides that there is nothing else but a text under `...`.
-/

set_option autoImplicit false

namespace SelectiveDisclosure

open Json Reveal

namespace Json.Value

def LacksBookkeeping : Value → Prop
  | .object ms => Digests.membersName ∉ Members.names ms ∧ Payload.algorithmName ∉ Members.names ms
  | _ => True

def LacksPlaceholders : Value → Prop
  | .array items => ∀ v ∈ items, Digests.placeholder? v = none
  | _ => True

instance : DecidablePred LacksPlaceholders
  | .array items => inferInstanceAs (Decidable (∀ v ∈ items, Digests.placeholder? v = none))
  | .object _ | .null | .bool _ | .number _ | .string _ => .isTrue trivial

end Json.Value

namespace Reveal

mutual

/-- The items that a walk goes through as they are, at any depth of a value. -/
def clearItems : Value → List Value
  | .array items => clearItemsOf items
  | .object members => clearItemsAmong members
  | _ => []

def clearItemsOf : List Value → List Value
  | [] => []
  | v :: r =>
    match Digests.placeholder? v with
    | some _ => clearItemsOf r
    | none => v :: clearItems v ++ clearItemsOf r

def clearItemsAmong : List (String × Value) → List Value
  | [] => []
  | (k, v) :: r =>
    (if k = Digests.membersName ∨ k = Payload.algorithmName then [] else clearItems v) ++
      clearItemsAmong r

end

def itemsOf : Concealed → List Value
  | .member _ v => clearItems v
  | .item v => v :: clearItems v

theorem clearItemsOf_of_placeholder {v : Value} {g : String} (h : Digests.placeholder? v = some g)
    (r : List Value) : clearItemsOf (v :: r) = clearItemsOf r := by
  rw [clearItemsOf, h]

theorem clearItemsOf_of_clear {v : Value} (h : Digests.placeholder? v = none) (r : List Value) :
    clearItemsOf (v :: r) = v :: clearItems v ++ clearItemsOf r := by
  rw [clearItemsOf, h]

theorem forall_mem_clearItemsAmong_iff {Q : Value → Prop} {ms : Members} :
    (∀ u ∈ clearItemsAmong ms, Q u) ↔ ∀ m ∈ own ms, ∀ u ∈ clearItems m.2, Q u := by
  simp only [mem_own_iff, and_imp]
  induction ms with
  | nil => simp [clearItemsAmong]
  | cons m r ih =>
    rw [clearItemsAmong, List.forall_mem_append, List.forall_mem_cons, ih]
    apply and_congr_left'
    by_cases hsd : m.1 = Digests.membersName <;> by_cases halg : m.1 = Payload.algorithmName <;>
      simp [hsd, halg]

/-- An object with nothing of its own but a text under `...`, and nothing disclosed for it. -/
def LeavesPlaceholder (H : String → Prop) (v : Value) : Prop :=
  ∃ ms s ds, v = .object ms ∧ own ms = [(Digests.placeholderName, .string s)] ∧
    digestTexts? ms = some ds ∧ ∀ g ∈ ds, H g

/-- A digest stands for one thing or for nothing, and not for a member with a reserved name. -/
structure Meaning (D : String → Concealed → Prop) (H : String → Prop) : Prop where
  functional : ∀ g c c', D g c → D g c' → c = c'
  apart : ∀ g c, D g c → ¬H g
  named : ∀ g name v, D g (.member name v) → isReserved name = false

section Opens
variable {D : String → Concealed → Prop} {H : String → Prop}

theorem value_eq_string_iff {o : Opening} {v : Value} (h : Opens D H o v) {s : String} :
    o.value = .string s ↔ v = .string s := by
  cases o with
  | leaf u => rw [h.1, Opening.value]
  | array cells =>
    obtain ⟨items, rfl, -⟩ := h
    simp [Opening.value]
  | object withheld members =>
    obtain ⟨ms, ds, slots, rfl, -⟩ := h
    simp [Opening.value]

theorem exists_singleton_of_opensMembers {members : List (String × Option String × Opening)}
    {s : String × Option String × Value} (h : OpensMembers D H members [s]) :
    ∃ o, members = [(s.1, s.2.1, o)] ∧ Opens D H o s.2.2 := by
  obtain _ | ⟨⟨k, mark, o⟩, r⟩ := members
  · rw [OpensMembers] at h
    cases h
  · obtain ⟨v, rest, heq, -, ho, hr⟩ := h
    cases heq
    obtain _ | ⟨m, r⟩ := r
    · exact ⟨o, rfl, ho⟩
    · obtain ⟨_, _, heq, -⟩ := hr
      cases heq

theorem leavesPlaceholder_of_value (hDH : Meaning D H) {o : Opening} {v : Value}
    (h : Opens D H o v) {s : String} (hs : o.value = Digests.placeholder s) :
    LeavesPlaceholder H v := by
  cases o with
  | leaf u =>
    obtain ⟨rfl, hv⟩ := h
    rw [show v = _ from hs] at hv
    exact hv.elim
  | array cells => cases hs
  | object withheld members =>
    obtain ⟨ms, ds, slots, rfl, htexts, hclear, -, hperm, hwith, hmembers⟩ := h
    have hvalues : Opening.memberValues members = [(Digests.placeholderName, .string s)] :=
      Value.object.inj hs
    obtain _ | ⟨⟨k, mark, o⟩, _ | ⟨⟨k', mark', o'⟩, r⟩⟩ := members
    · cases hvalues
    · obtain ⟨u, rest, rfl, hd, ho, hr⟩ := hmembers
      rw [OpensMembers] at hr
      subst hr
      obtain ⟨hk, hvalue⟩ := Prod.mk.inj (List.singleton_inj.1 hvalues)
      subst hk
      -- The member is the object's own, since none of a reserved name is disclosed.
      cases mark with
      | some g => exact absurd (hDH.named g _ u (hd g rfl)) (by decide)
      | none =>
        refine ⟨ms, s, ds, rfl, ?_, htexts, fun g hg => hwith g (hperm.mem_iff.1 hg)⟩
        rw [← hclear, ← (value_eq_string_iff ho).1 hvalue]
        rfl
    · simp [Opening.memberValues] at hvalues

theorem value_of_leavesPlaceholder (hDH : Meaning D H) {o : Opening} {v : Value}
    (h : Opens D H o v) (hv : LeavesPlaceholder H v) :
    ∃ s, o.value = Digests.placeholder s := by
  obtain ⟨ms, s, ds, rfl, hown, htexts, hH⟩ := hv
  obtain ⟨withheld, members, rfl⟩ := exists_object_of_opens h
  obtain ⟨ms', ds', slots, heq, htexts', hclear, hasc, hperm, hwith, hmembers⟩ := h
  cases heq
  obtain rfl : ds = ds' := Option.some.inj (htexts.symm.trans htexts')
  -- No digest of the object is disclosed, so it opens to no more than its own members.
  have hnone : ∀ s ∈ slots, s.2.1 = none := by
    intro s hs
    cases hmark : s.2.1 with
    | none => rfl
    | some g =>
      have hg : g ∈ ds := hperm.mem_iff.2 (List.mem_append_left _ (mem_marksOf hs hmark))
      exact absurd (hH g hg) (hDH.apart g _ (disclosed_of_opensMembers hmembers s hs g hmark))
  have hslots : slots = [(Digests.placeholderName, none, .string s)] := by
    have hmarked : markedOf slots = [] :=
      List.filter_eq_nil_iff.2 fun s hs => by simp [hnone s hs]
    have hp := perm_clearOf_markedOf slots
    rw [hmarked, hclear, hown] at hp
    exact List.perm_singleton.1 hp
  rw [hslots] at hmembers
  obtain ⟨o, rfl, ho⟩ := exists_singleton_of_opensMembers hmembers
  refine ⟨s, ?_⟩
  rw [Opening.value, Opening.memberValues, (value_eq_string_iff ho).2 rfl]
  rfl

theorem placeholder_value_iff (hDH : Meaning D H) {o : Opening} {v : Value} (h : Opens D H o v) :
    Digests.placeholder? o.value = none ↔ ¬LeavesPlaceholder H v := by
  constructor
  · intro hnone hv
    obtain ⟨s, hs⟩ := value_of_leavesPlaceholder hDH h hv
    rw [hs, Digests.placeholder?_placeholder] at hnone
    cases hnone
  · intro hv
    cases hp : Digests.placeholder? o.value with
    | none => rfl
    | some s => exact absurd (leavesPlaceholder_of_value hDH h (Digests.eq_placeholder hp)) hv

/-! ## Values of trees -/

theorem names_memberValues (members : List (String × Option String × Opening)) :
    Members.names (Opening.memberValues members) = Members.names members := by
  induction members with
  | nil => rfl
  | cons m r ih =>
    obtain ⟨k, mark, o⟩ := m
    rw [Opening.memberValues, Members.names, List.map_cons, ← Members.names, ih]
    rfl

theorem lacksBookkeeping_value (hDH : Meaning D H) {o : Opening} {v : Value}
    (h : Opens D H o v) : Value.LacksBookkeeping o.value := by
  cases o with
  | leaf u =>
    obtain ⟨rfl, hv⟩ := h
    cases v <;> trivial
  | array cells => trivial
  | object withheld members =>
    obtain ⟨ms, ds, slots, rfl, -, hclear, -, -, -, hmembers⟩ := h
    have hne : ∀ s ∈ slots, s.1 ≠ Digests.membersName ∧ s.1 ≠ Payload.algorithmName := by
      intro s hs
      cases hmark : s.2.1 with
      | none =>
        have hown := mem_clearOf hs hmark
        rw [hclear] at hown
        exact (mem_own_iff.1 hown).2
      | some g =>
        have hname := hDH.named g _ _ (disclosed_of_opensMembers hmembers s hs g hmark)
        obtain ⟨hsd, -, halg⟩ := ne_of_not_isReserved hname
        exact ⟨hsd, halg⟩
    rw [Opening.value, Value.LacksBookkeeping, names_memberValues, ← names_of_opensMembers hmembers]
    constructor
    · intro hmem
      obtain ⟨s, hs, heq⟩ := List.mem_map.1 hmem
      exact (hne s hs).1 heq
    · intro hmem
      obtain ⟨s, hs, heq⟩ := List.mem_map.1 hmem
      exact (hne s hs).2 heq

section Everywhere
variable {P : Value → Prop}

mutual

theorem everywhere_value (hP : ∀ o v, Opens D H o v → P o.value) (o : Opening) {v : Value}
    (h : Opens D H o v) : Value.Everywhere P o.value := by
  cases o with
  | leaf u =>
    have hv := hP _ _ h
    obtain ⟨rfl, hs⟩ := h
    cases v <;> first | exact hv | exact hs.elim
  | array cells =>
    have hv := hP _ _ h
    obtain ⟨items, rfl, hitems⟩ := h
    exact Value.everywhere_array_iff.2 ⟨hv, everywhere_cellValues hP cells hitems⟩
  | object withheld members =>
    have hv := hP _ _ h
    obtain ⟨ms, ds, slots, rfl, -, -, -, -, -, hmembers⟩ := h
    exact Value.everywhere_object_iff.2 ⟨hv, everywhere_memberValues hP members hmembers⟩

theorem everywhere_cellValues (hP : ∀ o v, Opens D H o v → P o.value)
    (cells : List (Cell Opening)) {items : List Value} (h : OpensItems D H cells items) :
    ∀ v ∈ Opening.cellValues cells, Value.Everywhere P v := by
  cases cells with
  | nil => exact nofun
  | cons cell r =>
    cases cell with
    | clear o =>
      obtain ⟨v, rest, -, -, ho, hr⟩ := h
      exact List.forall_mem_cons.2 ⟨everywhere_value hP o ho, everywhere_cellValues hP r hr⟩
    | disclosed g o =>
      obtain ⟨v, rest, -, -, ⟨u, -, ho⟩, hr⟩ := h
      exact List.forall_mem_cons.2 ⟨everywhere_value hP o ho, everywhere_cellValues hP r hr⟩
    | withheld g =>
      obtain ⟨v, rest, -, -, -, hr⟩ := h
      exact everywhere_cellValues hP r hr

theorem everywhere_memberValues (hP : ∀ o v, Opens D H o v → P o.value)
    (members : List (String × Option String × Opening))
    {slots : List (String × Option String × Value)} (h : OpensMembers D H members slots) :
    ∀ m ∈ Opening.memberValues members, Value.Everywhere P m.2 := by
  cases members with
  | nil => exact nofun
  | cons m r =>
    obtain ⟨k, mark, o⟩ := m
    obtain ⟨v, rest, -, -, ho, hr⟩ := h
    exact List.forall_mem_cons.2 ⟨everywhere_value hP o ho, everywhere_memberValues hP r hr⟩

end

end Everywhere

/-! ## Placeholders that are left -/

def Spares (D : String → Concealed → Prop) (H : String → Prop) (digest : String) : Prop :=
  ∀ c, D digest c → ∀ u ∈ itemsOf c, ¬LeavesPlaceholder H u

theorem spares_iff (hDH : Meaning D H) {g : String} {c : Concealed} (hc : D g c) :
    Spares D H g ↔ ∀ u ∈ itemsOf c, ¬LeavesPlaceholder H u := by
  constructor
  · exact fun h => h c hc
  · intro h c' hc'
    rw [← hDH.functional g c c' hc hc']
    exact h

mutual

/-- The value of a tree lacks placeholders at every depth exactly if none of the items that the walk
has gone through leaves one. -/
theorem lacksPlaceholders_value_iff (hDH : Meaning D H) (o : Opening) {v : Value}
    (h : Opens D H o v) :
    Value.Everywhere Value.LacksPlaceholders o.value ↔
      (∀ u ∈ clearItems v, ¬LeavesPlaceholder H u) ∧ ∀ e ∈ o.paths, Spares D H e.1 := by
  cases o with
  | leaf u =>
    obtain ⟨rfl, hs⟩ := h
    cases v <;> first
      | exact hs.elim
      | simp [Opening.value, Value.Everywhere, Value.LacksPlaceholders, clearItems, Opening.paths]
  | array cells =>
    obtain ⟨items, rfl, hitems⟩ := h
    rw [Opening.value, Value.everywhere_array_iff, Value.LacksPlaceholders, ← forall₂_and]
    exact lacksPlaceholders_cellValues_iff hDH cells hitems 0
  | object withheld members =>
    obtain ⟨ms, ds, slots, rfl, -, hclear, -, -, -, hmembers⟩ := h
    have hmembers := lacksPlaceholders_memberValues_iff hDH members hmembers
    rw [hclear, ← forall_mem_clearItemsAmong_iff] at hmembers
    rw [Opening.value, Value.everywhere_object_iff, hmembers]
    exact and_iff_right trivial

theorem lacksPlaceholders_cellValues_iff (hDH : Meaning D H) (cells : List (Cell Opening))
    {items : List Value} (h : OpensItems D H cells items) (i : Nat) :
    (∀ w ∈ Opening.cellValues cells,
        Digests.placeholder? w = none ∧ Value.Everywhere Value.LacksPlaceholders w) ↔
      (∀ u ∈ clearItemsOf items, ¬LeavesPlaceholder H u) ∧
        ∀ e ∈ Opening.cellPaths i cells, Spares D H e.1 := by
  cases cells with
  | nil =>
    rw [OpensItems] at h
    subst h
    simp [Opening.cellValues, clearItemsOf, Opening.cellPaths]
  | cons cell r =>
    cases cell with
    | clear o =>
      obtain ⟨v, rest, rfl, hplace, ho, hr⟩ := h
      have hr := lacksPlaceholders_cellValues_iff hDH r hr (i + 1)
      have ho : (Digests.placeholder? o.value = none ∧
          Value.Everywhere Value.LacksPlaceholders o.value) ↔
            (∀ u ∈ v :: clearItems v, ¬LeavesPlaceholder H u) ∧ ∀ e ∈ o.paths, Spares D H e.1 := by
        rw [placeholder_value_iff hDH ho, lacksPlaceholders_value_iff hDH o ho, ← and_assoc,
          List.forall_mem_cons]
      rw [Opening.cellValues, List.forall_mem_cons, hr, ho, clearItemsOf_of_clear hplace,
        List.forall_mem_append, Opening.cellPaths_clear, List.forall_mem_append,
        Opening.forall_mem_slotPaths_none_iff (Q := Spares D H), and_and_and_comm]
    | disclosed g o =>
      obtain ⟨v, rest, rfl, hplace, ⟨u, hu, ho⟩, hr⟩ := h
      have hr := lacksPlaceholders_cellValues_iff hDH r hr (i + 1)
      have ho : (Digests.placeholder? o.value = none ∧
          Value.Everywhere Value.LacksPlaceholders o.value) ↔
            Spares D H g ∧ ∀ e ∈ o.paths, Spares D H e.1 := by
        rw [placeholder_value_iff hDH ho, lacksPlaceholders_value_iff hDH o ho, ← and_assoc,
          spares_iff hDH hu, itemsOf, List.forall_mem_cons]
      rw [Opening.cellValues, List.forall_mem_cons, hr, ho, clearItemsOf_of_placeholder hplace,
        Opening.cellPaths_disclosed, List.forall_mem_append,
        Opening.forall_mem_slotPaths_some_iff (Q := Spares D H), and_left_comm]
    | withheld g =>
      obtain ⟨v, rest, rfl, hplace, -, hr⟩ := h
      have hr := lacksPlaceholders_cellValues_iff hDH r hr i
      rw [clearItemsOf_of_placeholder hplace]
      exact hr

theorem lacksPlaceholders_memberValues_iff (hDH : Meaning D H)
    (members : List (String × Option String × Opening))
    {slots : List (String × Option String × Value)} (h : OpensMembers D H members slots) :
    (∀ m ∈ Opening.memberValues members, Value.Everywhere Value.LacksPlaceholders m.2) ↔
      (∀ m ∈ clearOf slots, ∀ u ∈ clearItems m.2, ¬LeavesPlaceholder H u) ∧
        ∀ e ∈ markPaths members ++ Opening.memberPaths members, Spares D H e.1 := by
  cases members with
  | nil =>
    rw [OpensMembers] at h
    subst h
    simp [Opening.memberValues, clearOf, Opening.memberPaths, markPaths]
  | cons m r =>
    obtain ⟨k, mark, o⟩ := m
    obtain ⟨v, rest, rfl, hd, ho, hr⟩ := h
    have hr := lacksPlaceholders_memberValues_iff hDH r hr
    rw [Opening.memberValues, List.forall_mem_cons, hr, lacksPlaceholders_value_iff hDH o ho,
      Opening.forall_mem_paths_cons_iff (Q := Spares D H)]
    cases mark with
    | none =>
      rw [clearOf_cons_none, List.forall_mem_cons,
        Opening.forall_mem_slotPaths_none_iff (Q := Spares D H), and_and_and_comm]
    | some g =>
      have hg := spares_iff hDH (hd g rfl)
      rw [itemsOf] at hg
      rw [clearOf_cons_some, Opening.forall_mem_slotPaths_some_iff (Q := Spares D H), hg,
        and_left_comm]

end

end Opens

end Reveal

namespace Payload
variable {f : DigestFunction} {p : Payload} {ds : List Disclosure}

def items (p : Payload) (ds : List Disclosure) : List Value :=
  clearItems (.object p.claims) ++ ds.flatMap fun d => itemsOf d.concealed

theorem meaning_tableOf {algorithm : Option HashAlgorithm}
    (hdistinct : (ds.map (digestUnder f algorithm)).Nodup)
    (hnames : ∀ d ∈ ds, ∀ name v, d.concealed = .member name v → isReserved name = false) :
    Meaning (tableOf f algorithm ds).Discloses (tableOf f algorithm ds).Withholds where
  functional g c c' hc hc' := Option.some.inj (hc.symm.trans hc')
  apart g c hc hg := nomatch hg.symm.trans hc
  named g name v hc := by
    obtain ⟨d, hd, -, heq⟩ := (discloses_tableOf_iff hdistinct).1 hc
    exact hnames d hd name v heq

/-- Revealed claims have no bookkeeping in them, and have placeholders exactly if an item of the
payload or of a disclosure leaves one. -/
theorem bookkeeping_of_reveal (hp : Value.Sorted (.object p.claims))
    (hds : ∀ d ∈ ds, Value.Sorted d.concealed.value)
    (hnames : ∀ d ∈ ds, ∀ name v, d.concealed = .member name v → isReserved name = false)
    {claims : Members} {ps : List Pointer} (h : p.reveal f ds = .ok (claims, ps)) :
    Value.Everywhere Value.LacksBookkeeping (.object claims) ∧
      (Value.Everywhere Value.LacksPlaceholders (.object claims) ↔ ∀ u ∈ p.items ds,
        ¬LeavesPlaceholder (fun g => ∀ d ∈ ds, digestUnder f p.algorithm d ≠ g) u) := by
  obtain ⟨o, ho, hclaims⟩ := exists_reveals hp hds h
  have hDH := meaning_tableOf ho.distinct hnames
  have hspared : (∀ e ∈ o.paths, Spares (tableOf f p.algorithm ds).Discloses
      (tableOf f p.algorithm ds).Withholds e.1) ↔ ∀ d ∈ ds, ∀ u ∈ itemsOf d.concealed,
        ¬LeavesPlaceholder (tableOf f p.algorithm ds).Withholds u := by
    rw [← List.forall_mem_map (f := Prod.fst)]
    simp only [(perm_fst_paths ho hclaims h).mem_iff]
    rw [List.forall_mem_map]
    refine forall₂_congr fun d hd => spares_iff hDH ?_
    exact (discloses_tableOf_iff ho.distinct).2 ⟨d, hd, rfl, rfl⟩
  have hwithholds : (tableOf f p.algorithm ds).Withholds =
      fun g => ∀ d ∈ ds, digestUnder f p.algorithm d ≠ g :=
    funext fun g => propext withholds_tableOf_iff
  have hiff := lacksPlaceholders_value_iff hDH o ho.opens
  rw [hspared, hwithholds, hclaims] at hiff
  rw [← hclaims]
  refine ⟨everywhere_value (fun _ _ => lacksBookkeeping_value hDH) o ho.opens, ?_⟩
  rw [hclaims, hiff, items, List.forall_mem_append, List.forall_mem_flatMap]

end Payload

end SelectiveDisclosure
