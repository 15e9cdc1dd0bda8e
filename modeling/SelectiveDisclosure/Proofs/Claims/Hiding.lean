import SelectiveDisclosure.Proofs.Claims.Shape

/-!
# What a payload tells

Claims that differ in nothing but concealed values leave payloads that differ in nothing but
digests. Two values look alike to those who cannot see what is still to be concealed, nor what is
behind a digest. Concealing at one place in both keeps them alike, and so does concealing at all
places, after which there is nothing left to be concealed.
-/

set_option autoImplicit false

namespace SelectiveDisclosure

open Json Reveal

/-! ## Values without secrets -/

namespace Json.Value

mutual

/-- The value with `null` at some paths. -/
def nulled : (List String → Bool) → Value → Value
  | gone, .array items => .array (nulledItems gone 0 items)
  | gone, .object ms => .object (nulledMembers gone ms)
  | _, v => v

def nulledItems : (List String → Bool) → Nat → List Value → List Value
  | _, _, [] => []
  | gone, i, v :: r =>
    (if gone [Pointer.indexText i] then .null
      else nulled (fun path => gone (Pointer.indexText i :: path)) v) :: nulledItems gone (i + 1) r

def nulledMembers : (List String → Bool) → List (String × Value) → List (String × Value)
  | _, [] => []
  | gone, (k, v) :: r =>
    (k, if gone [k] then .null else nulled (fun path => gone (k :: path)) v) ::
      nulledMembers gone r

end

def emptied : Value → Value
  | .string _ => .string ""
  | v => v

def emptiedItems : Value → Value
  | .array items => .array (items.map emptied)
  | v => v

mutual

/-- The value with empty texts for its digests, which are the texts under `...` and those in an
array under `_sd`. -/
def blanked : Value → Value
  | .array items => .array (blankedItems items)
  | .object ms => .object (blankedMembers ms)
  | v => v

def blankedItems : List Value → List Value
  | [] => []
  | v :: r => blanked v :: blankedItems r

def blankedMembers : List (String × Value) → List (String × Value)
  | [] => []
  | (k, v) :: r =>
    (k, if k = Digests.membersName then v.emptiedItems
      else if k = Digests.placeholderName then v.emptied else blanked v) :: blankedMembers r

end

def nulledAt (gone : List String → Bool) (token : String) (v : Value) : Value :=
  if gone [token] then .null else nulled (fun path => gone (token :: path)) v

def blankedMember (k : String) (v : Value) : Value :=
  if k = Digests.membersName then v.emptiedItems
  else if k = Digests.placeholderName then v.emptied else blanked v

variable {gone : List String → Bool}

theorem getElem?_nulledItems (i j : Nat) (items : List Value) :
    (nulledItems gone i items)[j]? =
      items[j]?.map (nulledAt gone (Pointer.indexText (i + j))) := by
  induction items generalizing i j with
  | nil => rfl
  | cons v r ih =>
    cases j with
    | zero => rfl
    | succ j =>
      rw [nulledItems, List.getElem?_cons_succ, ih, List.getElem?_cons_succ, Nat.add_right_comm,
        Nat.add_assoc]

theorem length_nulledItems (i : Nat) (items : List Value) :
    (nulledItems gone i items).length = items.length := by
  induction items generalizing i with
  | nil => rfl
  | cons v r ih => rw [nulledItems, List.length_cons, ih, List.length_cons]

theorem nulledMembers_eq_map (ms : Members) :
    nulledMembers gone ms = ms.map fun m => (m.1, nulledAt gone m.1 m.2) := by
  induction ms with
  | nil => rfl
  | cons m r ih =>
    rw [nulledMembers, ih]
    rfl

theorem blankedItems_eq_map (items : List Value) : blankedItems items = items.map blanked := by
  induction items with
  | nil => rfl
  | cons v r ih => rw [blankedItems, ih, List.map_cons]

theorem blankedMembers_eq_map (ms : Members) :
    blankedMembers ms = ms.map fun m => (m.1, blankedMember m.1 m.2) := by
  induction ms with
  | nil => rfl
  | cons m r ih =>
    rw [blankedMembers, ih]
    rfl

theorem blankedMember_of_not_isReserved {k : String} (h : isReserved k = false) (v : Value) :
    blankedMember k v = v.blanked := by
  obtain ⟨hsd, hdots, -⟩ := ne_of_not_isReserved h
  rw [blankedMember, if_neg hsd, if_neg hdots]

theorem nulled_false (v : Value) : v.nulled (fun _ => false) = v := by
  induction v using Value.induct with
  | scalar v hv => cases v <;> first | rfl | cases hv
  | array items ih =>
    rw [nulled]
    congr 1
    refine List.ext_getElem? fun i => ?_
    rw [getElem?_nulledItems]
    cases hi : items[i]? with
    | none => rfl
    | some v => exact congrArg some (ih v (List.mem_of_getElem? hi))
  | object ms ih =>
    rw [nulled, nulledMembers_eq_map]
    congr 1
    refine (List.map_congr_left fun m hm => ?_).trans (List.map_id ms)
    exact Prod.ext rfl (ih m hm)

end Json.Value

/-! ## Values that look alike -/

namespace Json.Members

theorem get?_mapNamed {α β : Type} (F : String → α → β) (ms : List (String × α)) (k : String) :
    get? (ms.map fun m => (m.1, F m.1 m.2)) k = (get? ms k).map (F k) := by
  induction ms with
  | nil => rfl
  | cons m r ih =>
    obtain ⟨j, w⟩ := m
    rw [List.map_cons, get?, get?]
    by_cases hj : j = k
    · rw [if_pos hj, if_pos hj, hj, Option.map_some]
    · rw [if_neg hj, if_neg hj, ih]

theorem eq_of_get? {α : Type} {as bs : List (String × α)} (ha : Ascending as) (hb : Ascending bs)
    (h : ∀ k, get? as k = get? bs k) : as = bs := by
  refine eq_of_perm ha hb ((List.perm_ext_iff_of_nodup (nodup_names ha).of_map
    (nodup_names hb).of_map).2 ?_)
  rintro ⟨k, v⟩
  constructor
  · exact fun hm => mem_of_get? (h k ▸ get?_of_mem ha hm)
  · exact fun hm => mem_of_get? (h k ▸ get?_of_mem hb hm)

theorem get?_erase_self {α : Type} (ms : List (String × α)) (k : String) :
    get? (erase ms k) k = none := by
  rw [get?_eq_none_iff]
  intro hk
  obtain ⟨m, hm, rfl⟩ := List.mem_map.1 hk
  exact (mem_erase.1 hm).2 rfl

end Json.Members

section Alike
variable {gone : List String → Bool} {v₁ v₂ : Value} {items₁ items₂ : List Value}
  {ms₁ ms₂ : Members} {token : String}

/-- The values are the same to those who see neither what is gone nor what the digests are. -/
def Alike (gone : List String → Bool) (v₁ v₂ : Value) : Prop :=
  (v₁.nulled gone).blanked = (v₂.nulled gone).blanked

def sight (gone : List String → Bool) (k : String) (v : Value) : Value :=
  (v.nulledAt gone k).blankedMember k

theorem blanked_nulledAt_iff : (v₁.nulledAt gone token).blanked = (v₂.nulledAt gone token).blanked ↔
    gone [token] = true ∨ Alike (fun path => gone (token :: path)) v₁ v₂ := by
  rw [Value.nulledAt, Value.nulledAt]
  by_cases h : gone [token] = true
  · simp [h]
  · simp [h, Alike]

theorem alike_array_iff : Alike gone (.array items₁) (.array items₂) ↔
    items₁.length = items₂.length ∧ ∀ (i : Nat) (v₁ v₂ : Value),
      items₁[i]? = some v₁ → items₂[i]? = some v₂ →
        (v₁.nulledAt gone (Pointer.indexText i)).blanked =
          (v₂.nulledAt gone (Pointer.indexText i)).blanked := by
  have hget (items : List Value) (i : Nat) :
      (Value.blankedItems (Value.nulledItems gone 0 items))[i]? =
        items[i]?.map fun v => (v.nulledAt gone (Pointer.indexText i)).blanked := by
    rw [Value.blankedItems_eq_map, List.getElem?_map, Value.getElem?_nulledItems, Option.map_map,
      Nat.zero_add]
    rfl
  rw [Alike, Value.nulled, Value.nulled, Value.blanked, Value.blanked, Value.array.injEq]
  constructor
  · intro h
    refine ⟨?_, fun i v₁ v₂ h₁ h₂ => ?_⟩
    · have hlen := congrArg List.length h
      rwa [Value.blankedItems_eq_map, Value.blankedItems_eq_map, List.length_map, List.length_map,
        Value.length_nulledItems, Value.length_nulledItems] at hlen
    · have hi := congrArg (·[i]?) h
      rw [hget, hget, h₁, h₂] at hi
      exact Option.some.inj hi
  · rintro ⟨hlen, h⟩
    refine List.ext_getElem? fun i => ?_
    rw [hget, hget]
    cases h₁ : items₁[i]? with
    | none =>
      rw [List.getElem?_eq_none_iff, hlen, ← List.getElem?_eq_none_iff] at h₁
      rw [h₁]
    | some v₁ =>
      have hlt : i < items₂.length := hlen ▸ (List.getElem?_eq_some_iff.1 h₁).1
      have h₂ := List.getElem?_eq_getElem hlt
      rw [h₂]
      exact congrArg some (h i v₁ _ h₁ h₂)

theorem alike_object_iff (h₁ : Members.Ascending ms₁) (h₂ : Members.Ascending ms₂) :
    Alike gone (.object ms₁) (.object ms₂) ↔
      ∀ k, (Members.get? ms₁ k).map (sight gone k) = (Members.get? ms₂ k).map (sight gone k) := by
  have hmap (ms : Members) : Value.blankedMembers (Value.nulledMembers gone ms) =
      ms.map fun m => (m.1, sight gone m.1 m.2) := by
    rw [Value.blankedMembers_eq_map, Value.nulledMembers_eq_map, List.map_map]
    rfl
  have hasc {ms : Members} (h : Members.Ascending ms) :
      Members.Ascending (ms.map fun m => (m.1, sight gone m.1 m.2)) :=
    List.pairwise_map.2 h
  rw [Alike, Value.nulled, Value.nulled, Value.blanked, Value.blanked, Value.object.injEq, hmap,
    hmap]
  constructor
  · intro h k
    rw [← Members.get?_mapNamed, ← Members.get?_mapNamed, h]
  · intro h
    refine Members.eq_of_get? (hasc h₁) (hasc h₂) fun k => ?_
    rw [Members.get?_mapNamed, Members.get?_mapNamed, h]

theorem sight_of_not_isReserved (h : isReserved token = false) (v : Value) :
    sight gone token v = (v.nulledAt gone token).blanked :=
  Value.blankedMember_of_not_isReserved h _

theorem alike_placeholder (g₁ g₂ : String) :
    Alike gone (Digests.placeholder g₁) (Digests.placeholder g₂) := by
  have hsight (g : String) : sight gone Digests.placeholderName (.string g) =
      sight gone Digests.placeholderName (.string "") := by
    rw [sight, sight, Value.nulledAt, Value.nulledAt]
    split <;> rfl
  refine (alike_object_iff (List.pairwise_singleton _ _) (List.pairwise_singleton _ _)).2
    fun k => ?_
  by_cases hk : Digests.placeholderName = k
  · subst hk
    simp [Members.get?, hsight]
  · simp [Members.get?, hk]

theorem sight_array (gone : List String → Bool) (items : List Value) :
    sight gone Digests.membersName (.array items) =
      if gone [Digests.membersName] then .null
      else .array ((Value.nulledItems (fun path => gone (Digests.membersName :: path)) 0
        items).map Value.emptied) := by
  rw [sight, Value.nulledAt]
  split <;> rfl

theorem sight_texts {texts₁ texts₂ : List String} (h : texts₁.length = texts₂.length) :
    sight gone Digests.membersName (.array (texts₁.map .string)) =
      sight gone Digests.membersName (.array (texts₂.map .string)) := by
  have hblank (gone : List String → Bool) (i : Nat) (texts : List String) :
      (Value.nulledItems gone i (texts.map .string)).map Value.emptied =
        (Value.nulledItems gone i (List.replicate texts.length (.string ""))).map
          Value.emptied := by
    induction texts generalizing i with
    | nil => rfl
    | cons s r ih =>
      rw [List.map_cons, List.length_cons, List.replicate_succ, Value.nulledItems,
        Value.nulledItems, List.map_cons, List.map_cons, ih]
      congr 1
      split <;> rfl
  rw [sight_array, sight_array, hblank, hblank, h]

theorem length_eq_of_sight (hgone : gone [Digests.membersName] = false)
    (h : sight gone Digests.membersName (.array items₁) =
      sight gone Digests.membersName (.array items₂)) : items₁.length = items₂.length := by
  rw [sight_array, sight_array, hgone, if_neg Bool.false_ne_true, if_neg Bool.false_ne_true,
    Value.array.injEq] at h
  have hlen := congrArg List.length h
  rwa [List.length_map, List.length_map, Value.length_nulledItems, Value.length_nulledItems] at hlen

/-! ## One more path -/

def adding (path : List String) (gone : List String → Bool) (q : List String) : Bool :=
  path = q || gone q

theorem adding_cons_under (path : List String) :
    (fun q => adding (token :: path) gone (token :: q)) =
      adding path fun q => gone (token :: q) := by
  funext q
  simp [adding]

theorem nulledAt_adding_of_ne {path : List String} {k : String} (hne : token ≠ k) (v : Value) :
    v.nulledAt (adding (token :: path) gone) k = v.nulledAt gone k := by
  have hunder : (fun q => adding (token :: path) gone (k :: q)) = fun q => gone (k :: q) := by
    funext q
    simp [adding, hne]
  have hself : adding (token :: path) gone [k] = gone [k] := by simp [adding, hne]
  rw [Value.nulledAt, Value.nulledAt, hunder, hself]

theorem sight_adding_of_ne {path : List String} {k : String} (hne : token ≠ k) :
    sight (adding (token :: path) gone) k = sight gone k := by
  funext v
  rw [sight, sight, nulledAt_adding_of_ne hne]

theorem blanked_nulledAt_of_adding {path : List String} {w₁ w₂ : Value} (hne : path ≠ [])
    (h : (v₁.nulledAt (adding (token :: path) gone) token).blanked =
      (v₂.nulledAt (adding (token :: path) gone) token).blanked)
    (hw : Alike (adding path fun q => gone (token :: q)) v₁ v₂ →
      Alike (fun q => gone (token :: q)) w₁ w₂) :
    (w₁.nulledAt gone token).blanked = (w₂.nulledAt gone token).blanked := by
  have hself : adding (token :: path) gone [token] = gone [token] := by simp [adding, hne]
  rw [blanked_nulledAt_iff, hself, adding_cons_under] at h
  exact blanked_nulledAt_iff.2 (h.imp_right hw)

end Alike

/-! ## Concealing -/

namespace Concealer
variable {c₁ c₂ : Concealer} {gone : List String → Bool} {draw₁ draw₂ depth₁ depth₂ : Nat}
  {step₁ step₂ : Step}

theorem exists_concealMember {c : Concealer} {name : String} {ms : Members} {draw depth : Nat}
    {step : Step} (hname : isReserved name = false) (hfit : FitsIn (.object ms) depth)
    (h : c.concealMember name ms draw = some step) :
    Members.Ascending ms ∧ ∃ texts : List String,
      step.value = .object (Members.insert Digests.membersName (.array (texts.map .string))
        (Members.erase ms name)) ∧
      (Members.get? ms Digests.membersName = none ∧ texts.length = c.decoys + 1 ∨
        ∃ digests : List String,
          Members.get? ms Digests.membersName = some (.array (digests.map .string)) ∧
            texts.length = digests.length + 1) := by
  obtain ⟨hsd, -, -⟩ := ne_of_not_isReserved hname
  obtain ⟨-, -, hasc, ⟨digests, hdigests⟩, -⟩ := hfit
  have hleft : digestTexts? (Members.erase ms name) = some digests := by
    rw [digestTexts?, Members.get?_erase_of_ne hsd]
    exact hdigests
  obtain ⟨v, left, _, -, hstep, rfl⟩ := concealMember_eq_some_iff.1 h
  obtain ⟨old, texts, draw', hadd, -, hperm, hold⟩ := addDigest_cases (c := c) hleft
    (c.digest (Disclosure.ofParts (c.salt draw) (.member name v)).encoded) (draw + 1)
  cases hadd.symm.trans hstep
  rw [Members.get?_erase_of_ne hsd] at hold
  have hlen := hperm.length_eq
  rw [List.length_append, List.length_singleton] at hlen
  refine ⟨hasc, texts, rfl, ?_⟩
  rcases hold with ⟨hnone, rfl⟩ | ⟨hsome, rfl⟩
  · rw [List.length_map, List.length_range] at hlen
    exact .inl ⟨hnone, hlen⟩
  · exact .inr ⟨_, hsome, hlen⟩

theorem alike_concealMember (hdecoys : c₁.decoys = c₂.decoys) {name : String} {ms₁ ms₂ : Members}
    (hname : isReserved name = false) (hfit₁ : FitsIn (.object ms₁) depth₁)
    (hfit₂ : FitsIn (.object ms₂) depth₂)
    (h₁ : c₁.concealMember name ms₁ draw₁ = some step₁)
    (h₂ : c₂.concealMember name ms₂ draw₂ = some step₂)
    (h : Alike (adding [name] gone) (.object ms₁) (.object ms₂)) :
    Alike gone step₁.value step₂.value := by
  obtain ⟨hasc₁, texts₁, hvalue₁, hlen₁⟩ := exists_concealMember hname hfit₁ h₁
  obtain ⟨hasc₂, texts₂, hvalue₂, hlen₂⟩ := exists_concealMember hname hfit₂ h₂
  have hget (k : String) (hne : name ≠ k) : (Members.get? ms₁ k).map (sight gone k) =
      (Members.get? ms₂ k).map (sight gone k) := by
    have hsame := (alike_object_iff hasc₁ hasc₂).1 h k
    rwa [sight_adding_of_ne hne] at hsame
  rw [hvalue₁, hvalue₂]
  refine (alike_object_iff (Members.ascending_insert (Members.ascending_erase hasc₁))
    (Members.ascending_insert (Members.ascending_erase hasc₂))).2 fun k => ?_
  by_cases hk : Digests.membersName = k
  · subst hk
    rw [Members.get?_insert_self, Members.get?_insert_self, Option.map_some, Option.map_some]
    congr 1
    by_cases hgone : gone [Digests.membersName] = true
    · rw [sight_array, sight_array, hgone, if_pos rfl, if_pos rfl]
    refine sight_texts ?_
    have hold := hget _ (ne_of_not_isReserved hname).1
    rcases hlen₁ with ⟨hnone₁, hlen₁⟩ | ⟨digests₁, hsome₁, hlen₁⟩ <;>
      rcases hlen₂ with ⟨hnone₂, hlen₂⟩ | ⟨digests₂, hsome₂, hlen₂⟩
    · rw [hlen₁, hlen₂, hdecoys]
    · rw [hnone₁, hsome₂] at hold
      cases hold
    · rw [hsome₁, hnone₂] at hold
      cases hold
    · rw [hsome₁, hsome₂] at hold
      have hsame := length_eq_of_sight (eq_false_of_ne_true hgone) (Option.some.inj hold)
      rw [List.length_map, List.length_map] at hsame
      rw [hlen₁, hlen₂, hsame]
  · rw [Members.get?_insert_of_ne hk, Members.get?_insert_of_ne hk]
    by_cases hn : name = k
    · subst hn
      rw [Members.get?_erase_self, Members.get?_erase_self]
    · rw [Members.get?_erase_of_ne hn, Members.get?_erase_of_ne hn]
      exact hget k hn

theorem alike_insert {name : String} {path : List String} {ms₁ ms₂ : Members} {v₁ v₂ : Value}
    (hname : isReserved name = false) (hasc₁ : Members.Ascending ms₁)
    (hasc₂ : Members.Ascending ms₂)
    (h : Alike (adding (name :: path) gone) (.object ms₁) (.object ms₂))
    (hv : (v₁.nulledAt gone name).blanked = (v₂.nulledAt gone name).blanked) :
    Alike gone (.object (Members.insert name v₁ ms₁)) (.object (Members.insert name v₂ ms₂)) := by
  refine (alike_object_iff (Members.ascending_insert hasc₁)
    (Members.ascending_insert hasc₂)).2 fun k => ?_
  by_cases hk : name = k
  · subst hk
    rw [Members.get?_insert_self, Members.get?_insert_self, Option.map_some, Option.map_some,
      sight_of_not_isReserved hname, sight_of_not_isReserved hname, hv]
  · rw [Members.get?_insert_of_ne hk, Members.get?_insert_of_ne hk]
    have hsame := (alike_object_iff hasc₁ hasc₂).1 h k
    rwa [sight_adding_of_ne hk] at hsame

theorem alike_set {i : Nat} {path : List String} {items₁ items₂ : List Value} {v₁ v₂ : Value}
    (h : Alike (adding (Pointer.indexText i :: path) gone) (.array items₁) (.array items₂))
    (hv : (v₁.nulledAt gone (Pointer.indexText i)).blanked =
      (v₂.nulledAt gone (Pointer.indexText i)).blanked) :
    Alike gone (.array (items₁.set i v₁)) (.array (items₂.set i v₂)) := by
  obtain ⟨hlen, h⟩ := alike_array_iff.1 h
  refine alike_array_iff.2 ⟨by rw [List.length_set, List.length_set, hlen], fun j w₁ w₂ h₁ h₂ => ?_⟩
  by_cases hne : i = j
  · subst hne
    have hlt₁ : i < (items₁.set i v₁).length := (List.getElem?_eq_some_iff.1 h₁).1
    have hlt₂ : i < (items₂.set i v₂).length := (List.getElem?_eq_some_iff.1 h₂).1
    rw [List.length_set] at hlt₁ hlt₂
    rw [List.getElem?_set_self hlt₁] at h₁
    rw [List.getElem?_set_self hlt₂] at h₂
    cases h₁
    cases h₂
    exact hv
  · rw [List.getElem?_set_ne hne] at h₁ h₂
    have hsame := h j w₁ w₂ h₁ h₂
    have hother : Pointer.indexText i ≠ Pointer.indexText j :=
      fun heq => hne (Pointer.indexText_injective heq)
    rwa [nulledAt_adding_of_ne hother, nulledAt_adding_of_ne hother] at hsame

theorem exists_fitsIn_member {ms : Members} {name : String} {v : Value} {depth : Nat}
    (hname : isReserved name = false) (hfit : FitsIn (.object ms) depth)
    (hget : Members.get? ms name = some v) : Members.Ascending ms ∧ ∃ e, FitsIn v e := by
  obtain ⟨e, -, hasc, -, -, hmembers⟩ := hfit
  exact ⟨hasc, e, (fitMembers_iff.1 hmembers _ (Members.mem_of_get? hget)).resolve_left
    (ne_of_not_isReserved hname).1⟩

theorem exists_fitsIn_item {c : Concealer} {ts : List Pointer.Token} {items : List Value}
    {i draw depth : Nat} {v : Value} {step : Step}
    (hts : ∀ t ∈ ts, isReserved t.toDecoded = false) (hfit : FitsIn (.array items) depth)
    (hi : items[i]? = some v) (h : c.ConcealsAt draw ts v step) : ∃ e, FitsIn v e := by
  obtain ⟨e, -, hitems⟩ := hfit
  rcases fitItems_iff.1 hitems v (List.mem_of_getElem? hi) with ⟨g, rfl⟩ | hv
  · exact absurd h (not_concealsAt_placeholder hts g)
  · exact ⟨e, hv⟩

theorem alike_concealAt (hdecoys : c₁.decoys = c₂.decoys) {ts : List Pointer.Token}
    {v₁ v₂ : Value} (hts : ∀ t ∈ ts, isReserved t.toDecoded = false) (hfit₁ : FitsIn v₁ depth₁)
    (hfit₂ : FitsIn v₂ depth₂) (h₁ : c₁.ConcealsAt draw₁ ts v₁ step₁)
    (h₂ : c₂.ConcealsAt draw₂ ts v₂ step₂)
    (h : Alike (adding (ts.map Pointer.Token.toDecoded) gone) v₁ v₂) :
    Alike gone step₁.value step₂.value := by
  -- Both go the same way: values that look alike are both arrays or both objects.
  induction h₁ generalizing v₂ gone depth₁ depth₂ step₂ with
  | member h₁ =>
    cases h₂ with
    | member h₂ =>
      exact alike_concealMember hdecoys (hts _ List.mem_cons_self) hfit₁ hfit₂ h₁ h₂ h
    | inMember _ h₂ => exact absurd rfl h₂.ne_nil
    | item => cases h
    | inItem => cases h
  | item hi₁ h₁ =>
    cases h₂ with
    | item hi₂ h₂ =>
      cases hi₁.symm.trans hi₂
      obtain ⟨u₁, -, rfl⟩ := concealItem_eq_some_iff.1 h₁
      obtain ⟨u₂, -, rfl⟩ := concealItem_eq_some_iff.1 h₂
      rw [List.map_cons, Pointer.Token.toDecoded_eq_of_index? hi₁] at h
      exact alike_set h (blanked_nulledAt_iff.2 (.inr (alike_placeholder _ _)))
    | inItem _ _ h₂ => exact absurd rfl h₂.ne_nil
    | member => cases h
    | inMember => cases h
  | @inMember t rest ms₁ u₁ step₁ hget₁ h₁ ih =>
    cases h₂ with
    | inMember hget₂ h₂ =>
      obtain ⟨ht, hrest⟩ := List.forall_mem_cons.1 hts
      obtain ⟨hasc₁, e₁, hu₁⟩ := exists_fitsIn_member ht hfit₁ hget₁
      obtain ⟨hasc₂, e₂, hu₂⟩ := exists_fitsIn_member ht hfit₂ hget₂
      have hsame := (alike_object_iff hasc₁ hasc₂).1 h t.toDecoded
      rw [hget₁, hget₂, Option.map_some, Option.map_some, Option.some.injEq,
        sight_of_not_isReserved ht, sight_of_not_isReserved ht] at hsame
      exact alike_insert ht hasc₁ hasc₂ h
        (blanked_nulledAt_of_adding h₁.map_ne_nil hsame (ih hrest hu₁ hu₂ h₂))
    | member => exact absurd rfl h₁.ne_nil
    | item => cases h
    | inItem => cases h
  | inItem hi₁ hget₁ h₁ ih =>
    cases h₂ with
    | inItem hi₂ hget₂ h₂ =>
      obtain ⟨-, hrest⟩ := List.forall_mem_cons.1 hts
      cases hi₁.symm.trans hi₂
      obtain ⟨e₁, hu₁⟩ := exists_fitsIn_item hrest hfit₁ hget₁ h₁
      obtain ⟨e₂, hu₂⟩ := exists_fitsIn_item hrest hfit₂ hget₂ h₂
      rw [List.map_cons, Pointer.Token.toDecoded_eq_of_index? hi₁] at h
      have hsame := (alike_array_iff.1 h).2 _ _ _ hget₁ hget₂
      exact alike_set h
        (blanked_nulledAt_of_adding h₁.map_ne_nil hsame (ih hrest hu₁ hu₂ h₂))
    | item => exact absurd rfl h₁.ne_nil
    | member => cases h
    | inMember => cases h

end Concealer

def Pointer.among (ps : List Pointer) (path : List String) : Bool :=
  ps.any fun p => p.decoded = path

namespace Concealer
variable {c₁ c₂ : Concealer} {ps : List Pointer} {claims₁ claims₂ claims₁' claims₂' : Members}
  {draw₁ draw₂ depth₁ depth₂ : Nat} {ds₁ ds₂ : List Disclosure}

/-- With each place that is concealed there is one fewer that is not to be seen. -/
theorem alike_concealAll (hdecoys : c₁.decoys = c₂.decoys)
    (hts : ∀ p ∈ ps, ∀ t ∈ p.tokens, isReserved t.toDecoded = false)
    (hfit₁ : FitsIn (.object claims₁) depth₁) (hfit₂ : FitsIn (.object claims₂) depth₂)
    (h₁ : c₁.concealAll ps claims₁ draw₁ = .ok (claims₁', ds₁))
    (h₂ : c₂.concealAll ps claims₂ draw₂ = .ok (claims₂', ds₂))
    (h : Alike (Pointer.among ps) (.object claims₁) (.object claims₂)) :
    ds₁.length = ds₂.length ∧
      (Value.object claims₁').blanked = (Value.object claims₂').blanked := by
  induction ps generalizing claims₁ claims₂ draw₁ draw₂ ds₁ ds₂ with
  | nil =>
    rw [concealAll] at h₁ h₂
    cases h₁
    cases h₂
    rw [Alike, show Pointer.among [] = fun _ => false from rfl, Value.nulled_false,
      Value.nulled_false] at h
    exact ⟨rfl, h⟩
  | cons p r ih =>
    obtain ⟨hp, hr⟩ := List.forall_mem_cons.1 hts
    obtain ⟨-, d₁, left₁, next₁, rest₁, hstep₁, hrun₁, rfl⟩ := concealAll_cons_eq_ok_iff.1 h₁
    obtain ⟨-, d₂, left₂, next₂, rest₂, hstep₂, hrun₂, rfl⟩ := concealAll_cons_eq_ok_iff.1 h₂
    obtain ⟨hfit₁', -⟩ := fitsIn_concealAt hp hstep₁ hfit₁
    obtain ⟨hfit₂', -⟩ := fitsIn_concealAt hp hstep₂ hfit₂
    obtain ⟨hlen, hblanked⟩ := ih hr hfit₁' hfit₂' hrun₁ hrun₂
      (alike_concealAt hdecoys hp hfit₁ hfit₂ hstep₁ hstep₂ h)
    exact ⟨by rw [List.length_cons, List.length_cons, hlen], hblanked⟩

end Concealer

namespace Payload

/-- Of claims that are the same but for concealed values, the payloads are the same but for
digests. -/
theorem blanked_eq_of_nulled_eq (f : DigestFunction) (a : HashAlgorithm) (decoys : Nat)
    (random₁ random₂ : RandomSource) (claims₁ claims₂ : Members) (places : List Pointer)
    (payload₁ payload₂ : Payload) (ds₁ ds₂ : List Disclosure)
    (hs₁ : Value.Sorted (.object claims₁)) (hs₂ : Value.Sorted (.object claims₂))
    (hsame : (Value.object claims₁).nulled (Pointer.among places) =
      (Value.object claims₂).nulled (Pointer.among places))
    (h₁ : conceal f ⟨a, decoys, random₁⟩ claims₁ places = .ok (payload₁, ds₁))
    (h₂ : conceal f ⟨a, decoys, random₂⟩ claims₂ places = .ok (payload₂, ds₂)) :
    payload₁.algorithm = payload₂.algorithm ∧
      (Value.object payload₁.claims).blanked = (Value.object payload₂.claims).blanked := by
  have hc₁ := conceals_of_conceal h₁
  have hc₂ := conceals_of_conceal h₂
  have hamong : Pointer.among (descending places) = Pointer.among places := by
    funext path
    rw [Bool.eq_iff_iff, Pointer.among, Pointer.among, List.any_eq_true, List.any_eq_true]
    exact exists_congr fun p => and_congr_left fun _ => mem_descending
  have halike : Alike (Pointer.among (descending places)) (.object claims₁) (.object claims₂) := by
    rw [Alike, hamong, hsame]
  obtain ⟨hlen, hblanked⟩ := Concealer.alike_concealAll (by rfl)
    (fun p hp => hc₁.tokens p (mem_descending.1 hp))
    (fitsIn_of_reservedIn? hs₁ (Nat.le_refl _) hc₁.names)
    (fitsIn_of_reservedIn? hs₂ (Nat.le_refl _) hc₂.names) hc₁.run hc₂.run halike
  refine ⟨?_, hblanked⟩
  rw [hc₁.algorithm, hc₂.algorithm]
  cases ds₁ with
  | nil => rw [List.eq_nil_of_length_eq_zero hlen.symm]
  | cons d r =>
    cases ds₂ with
    | nil => cases hlen
    | cons d' r' => rfl

def secretClaims : Members :=
  [("s", .object [("0", .array [.bool true, .null])]), ("t", .array [.bool true, .bool false])]

def otherClaims : Members :=
  [("s", .array [.object [("1", .string "x")]]), ("t", .array [.null, .bool false])]

def secretPlaces : List Pointer :=
  [⟨"/s", by decide⟩, ⟨"/s/0", by decide⟩, ⟨"/s/0/1", by decide⟩, ⟨"/t/0", by decide⟩]

/-- The payloads of the two are the same but for digests, with other salts and a decoy for each
object. -/
theorem blanked_eq_of_secretClaims :
    ∃ payload₁ payload₂ ds₁ ds₂,
      conceal HashAlgorithm.digest ⟨.sha256, 1, fun n => [UInt8.ofNat n]⟩ secretClaims
        secretPlaces = .ok (payload₁, ds₁) ∧
      conceal HashAlgorithm.digest ⟨.sha256, 1, fun n => [UInt8.ofNat (n + 64)]⟩
        otherClaims secretPlaces = .ok (payload₂, ds₂) ∧
      payload₁.algorithm = payload₂.algorithm ∧
      (Value.object payload₁.claims).blanked = (Value.object payload₂.claims).blanked := by
  have hs₁ : Value.Sorted (.object secretClaims) := by
    refine ⟨show List.Pairwise _ _ by decide, ?_⟩
    simp [secretClaims, Value.Sorted, Value.SortedMembers, Value.SortedItems, Members.Ascending]
  have hs₂ : Value.Sorted (.object otherClaims) := by
    refine ⟨show List.Pairwise _ _ by decide, ?_⟩
    simp [otherClaims, Value.Sorted, Value.SortedMembers, Value.SortedItems, Members.Ascending]
  have hsame : (Value.object secretClaims).nulled (Pointer.among secretPlaces) =
      (Value.object otherClaims).nulled (Pointer.among secretPlaces) := by
    have hs : Pointer.among secretPlaces ["s"] = true := by decide +kernel
    have ht : Pointer.among secretPlaces ["t"] = false := by decide +kernel
    have ht₀ : Pointer.among secretPlaces ["t", Pointer.indexText 0] = true := by decide +kernel
    have ht₁ : Pointer.among secretPlaces ["t", Pointer.indexText 1] = false := by decide +kernel
    simp [secretClaims, otherClaims, Value.nulled, Value.nulledMembers, Value.nulledItems, hs, ht,
      ht₀, ht₁]
  have hok₁ : (conceal HashAlgorithm.digest ⟨.sha256, 1, fun n => [UInt8.ofNat n]⟩
      secretClaims secretPlaces).isOk = true := by decide +kernel
  have hok₂ : (conceal HashAlgorithm.digest ⟨.sha256, 1, fun n => [UInt8.ofNat (n + 64)]⟩
      otherClaims secretPlaces).isOk = true := by decide +kernel
  obtain ⟨⟨payload₁, ds₁⟩, h₁⟩ := exists_ok hok₁
  obtain ⟨⟨payload₂, ds₂⟩, h₂⟩ := exists_ok hok₂
  exact ⟨payload₁, payload₂, ds₁, ds₂, h₁, h₂,
    blanked_eq_of_nulled_eq _ .sha256 1 _ _ _ _ _ _ _ _ _ hs₁ hs₂ hsame h₁ h₂⟩

end Payload

end SelectiveDisclosure
