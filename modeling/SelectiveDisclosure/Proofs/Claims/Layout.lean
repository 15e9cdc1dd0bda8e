import SelectiveDisclosure.Proofs.Claims.Shape

/-!
# Where digests stand

A digest is known by its place: it is a text in the array under `_sd`, or the text under `...`.
In a concealed payload and its disclosures the digests that stand in such places are those that the
final check collects, so all of them are distinct.
-/

set_option autoImplicit false

namespace SelectiveDisclosure

open Json Reveal

theorem Pointer.indexText_ne {i : Nat} {s : String} {a : Char} (ha : a ∈ s.toList)
    (hdigit : a.isDigit = false) : Pointer.indexText i ≠ s := by
  rintro rfl
  rw [Pointer.indexText, String.toList_ofList] at ha
  rw [Nat.isDigit_of_mem_toDigits (by decide) (by decide) ha] at hdigit
  cases hdigit

/-! ## Places of digests -/

namespace Digests

def isPlace : List String → Bool
  | [] => false
  | [last] => last == placeholderName
  | [token, last] => token == membersName || last == placeholderName
  | _ :: token :: last :: rest => isPlace (token :: last :: rest)

def digestAt? (q : List String × Value) : Option String :=
  match q.2 with
  | .string g => if isPlace q.1 then some g else none
  | _ => none

def standingIn (v : Value) : List String :=
  v.parts.filterMap digestAt?

theorem isPlace_append {path : List String} (h : isPlace path = true) (front : List String) :
    isPlace (front ++ path) = true := by
  induction front with
  | nil => exact h
  | cons token front ih =>
    rw [List.cons_append]
    cases hq : front ++ path with
    | nil =>
      rw [hq] at ih
      cases ih
    | cons a r =>
      rw [hq] at ih
      cases r with
      | nil =>
        rw [isPlace] at ih
        rw [isPlace, ih, Bool.or_true]
      | cons b r => exact ih

theorem digestAt?_under {token : String} (hsd : token ≠ membersName)
    (hdots : token ≠ placeholderName) (q : List String × Value) :
    digestAt? (Value.under token q) = digestAt? q := by
  obtain ⟨path, w⟩ := q
  cases w with
  | string g =>
    match path with
    | [] => simp [digestAt?, Value.under, isPlace, hdots]
    | [last] => simp [digestAt?, Value.under, isPlace, hsd]
    | a :: b :: r => rfl
  | _ => rfl

theorem filterMap_under {token : String} (hsd : token ≠ membersName)
    (hdots : token ≠ placeholderName) (v : Value) :
    (v.parts.map (Value.under token)).filterMap digestAt? = standingIn v := by
  rw [List.filterMap_map, standingIn]
  exact congrArg (List.filterMap · _) (funext (digestAt?_under hsd hdots))

theorem standingIn_of_depth_eq_zero {v : Value} (h : v.depth = 0) : standingIn v = [] := by
  rw [standingIn, Value.parts_of_depth_eq_zero h]
  cases v <;> rfl

theorem standingIn_array (items : List Value) :
    standingIn (.array items) = items.flatMap standingIn := by
  have hitems (i : Nat) : (Value.partsOfItems i items).filterMap digestAt? =
      items.flatMap standingIn := by
    induction items generalizing i with
    | nil => rfl
    | cons v r ih =>
      have hsd : Pointer.indexText i ≠ membersName :=
        Pointer.indexText_ne (a := '_') (by decide) rfl
      have hdots : Pointer.indexText i ≠ placeholderName :=
        Pointer.indexText_ne (a := '.') (by decide) rfl
      rw [Value.partsOfItems, List.filterMap_append, ih, filterMap_under hsd hdots,
        List.flatMap_cons]
  exact hitems 0

theorem standingIn_object (ms : Members) :
    standingIn (.object ms) =
      ms.flatMap fun m => (m.2.parts.map (Value.under m.1)).filterMap digestAt? := by
  have hmembers : (Value.partsOfMembers ms).filterMap digestAt? =
      ms.flatMap fun m => (m.2.parts.map (Value.under m.1)).filterMap digestAt? := by
    induction ms with
    | nil => rfl
    | cons m r ih => rw [Value.partsOfMembers, List.filterMap_append, ih, List.flatMap_cons]
  exact hmembers

theorem standingIn_placeholder (g : String) : standingIn (placeholder g) = [g] := by
  rw [placeholder, standingIn_object, List.flatMap_singleton,
    Value.parts_of_depth_eq_zero (v := .string g) rfl]
  simp [Value.under, digestAt?, isPlace]

theorem filterMap_texts (front texts : List String)
    (hfront : ∀ i, isPlace (front ++ [Pointer.indexText i]) = true) :
    ((Value.array (texts.map .string)).parts.map fun q => (front ++ q.1, q.2)).filterMap
      digestAt? = texts := by
  have hitems (i : Nat) : ((Value.partsOfItems i (texts.map .string)).map fun q =>
      (front ++ q.1, q.2)).filterMap digestAt? = texts := by
    induction texts generalizing i with
    | nil => rfl
    | cons s r ih =>
      rw [List.map_cons, Value.partsOfItems, List.map_append, List.filterMap_append, ih,
        Value.parts_of_depth_eq_zero (v := .string s) rfl]
      simp [Value.under, digestAt?, hfront]
  exact hitems 0

theorem sublist_standingIn {v w : Value} {path texts : List String}
    (h : (path, w) ∈ v.parts)
    (htexts : (w.parts.map fun q => (path ++ q.1, q.2)).filterMap digestAt? = texts) :
    texts.Sublist (standingIn v) := by
  rw [← htexts]
  exact (Value.sublist_parts h).filterMap digestAt?

theorem sublist_of_member {v : Value} {path texts : List String} {ms : Members}
    (h : (path, .object ms) ∈ v.parts)
    (hget : Members.get? ms membersName = some (.array (texts.map .string))) :
    texts.Sublist (standingIn v) := by
  have hmember := Value.mem_parts_append h
    (Value.mem_parts_member (Members.mem_of_get? hget) (Value.self_mem_parts _))
  refine sublist_standingIn hmember (filterMap_texts _ texts fun i => ?_)
  rw [List.append_assoc]
  exact isPlace_append rfl path

theorem mem_standingIn_of_placeholder {v : Value} {path : List String} {g : String}
    (h : (path, placeholder g) ∈ v.parts) : g ∈ standingIn v := by
  have hmember := Value.mem_parts_append h
    (Value.mem_parts_member List.mem_cons_self (Value.self_mem_parts (.string g)))
  have hplace : isPlace (path ++ [placeholderName]) = true := isPlace_append rfl path
  exact List.mem_filterMap.2 ⟨_, hmember, by simp [digestAt?, hplace]⟩

end Digests

/-! ## Parts of shaped values -/

section Shaped
variable {c : Concealer} {es : List Entry} {before v w : Value} {path : List String}

theorem placeholder?_of_shaped (h : Shaped c es before v) : Digests.placeholder? v = none := by
  cases hp : Digests.placeholder? v with
  | none => rfl
  | some g =>
    rw [Digests.eq_placeholder hp] at h
    obtain ⟨-, -, -, -, hdots, -⟩ := h
    exact absurd List.mem_cons_self hdots

theorem standingIn_of_shaped (h : Shaped c es before v) :
    Digests.standingIn v = Digests.inValue v := by
  induction v using Value.induct generalizing es before with
  | scalar v hv =>
    rw [Digests.standingIn_of_depth_eq_zero hv]
    cases v with
    | array items => cases hv
    | object ms => cases hv
    | _ => rfl
  | array items ih =>
    rw [Digests.standingIn_array, Digests.inValue, Digests.inItems_eq_flatMap]
    refine List.flatMap_congr fun v hv => ?_
    obtain ⟨i, hi⟩ := List.mem_iff_getElem?.1 hv
    obtain ⟨v₀, hitem, -⟩ := Concealer.exists_shapedItem h hi
    rcases hitem with ⟨d, -, -, rfl⟩ | hshaped
    · rw [Digests.standingIn_placeholder, Digests.ofItem, Digests.placeholder?_placeholder]
    · rw [ofItem_of_not_placeholder (placeholder?_of_shaped hshaped), ih v hv hshaped]
  | object ms ih =>
    obtain ⟨ms₀, -, hasc, -, hdots, hbears, -, hmembers⟩ := h
    rw [shapedMembers_iff] at hmembers
    rw [Digests.standingIn_object, Digests.inValue, Digests.inMembers_eq_flatMap]
    refine List.flatMap_congr fun m hm => ?_
    obtain ⟨k, u⟩ := m
    by_cases hk : k = Digests.membersName
    · subst hk
      obtain ⟨texts, rfl⟩ := hbears.eq_texts hasc hm
      rw [Digests.ofMember, if_pos rfl, Digests.textsOf_strings]
      exact Digests.filterMap_texts [Digests.membersName] texts fun i => rfl
    · have hdot : k ≠ Digests.placeholderName := fun heq =>
        hdots (heq ▸ Members.mem_names_of_mem hm)
      obtain ⟨u₀, -, hu⟩ := (hmembers k u hm).resolve_left hk
      rw [Digests.filterMap_under hk hdot, Digests.ofMember, if_neg hk]
      exact ih _ hm hu

/-- The part at the path is not concealed, nor anything around it. -/
structure Stands (c : Concealer) (es : List Entry) (before : Value) (path : List String)
    (w : Value) : Prop where
  shaped : Concealer.ShapedAt c es before path w
  clear : ∀ e ∈ es, ¬e.1 <+: path

/-- An array or an object in a concealed value is a part that stands, a placeholder in such an
array, or the array of the digests in such an object. -/
inductive Container (c : Concealer) (es : List Entry) (before v : Value) (path : List String)
    (w : Value) : Prop where
  | whole (h : Stands c es before path w)
  | placeholder (front : List String) (i : Nat) (items : List Value) (d : Disclosure)
      (hpath : path = front ++ [Pointer.indexText i])
      (hw : w = Digests.placeholder (c.digest d.encoded)) (hd : (path, d) ∈ es)
      (hname : d.concealed.name? = none) (hpart : (front, .array items) ∈ v.parts)
      (hstands : Stands c es before front (.array items))
  | digests (front : List String) (ms : Members) (texts : List String)
      (hpath : path = front ++ [Digests.membersName]) (hw : w = .array (texts.map .string))
      (hget : Members.get? ms Digests.membersName = some w)
      (hstands : Stands c es before front (.object ms))

theorem stands_root (h : Shaped c es before v) : Stands c es before [] v := by
  refine ⟨⟨before, Value.self_mem_parts _, h⟩, fun e he hbegins => ?_⟩
  exact ne_nil_of_shaped h e he (List.prefix_nil.1 hbegins)

theorem Stands.cons {token : String} {u₀ : Value}
    (h : Stands c (Entry.inside token es) u₀ path w) (hes : ∀ e ∈ es, e.1 ≠ [])
    (hbefore : ∀ q x, (q, x) ∈ u₀.parts → (token :: q, x) ∈ before.parts) :
    Stands c es before (token :: path) w := by
  obtain ⟨⟨w₀, hw₀, hshaped⟩, hclear⟩ := h
  refine ⟨⟨w₀, hbefore _ _ hw₀, hshaped⟩, ?_⟩
  rintro ⟨q, d⟩ he hbegins
  cases q with
  | nil => exact hes _ he rfl
  | cons t q =>
    obtain ⟨rfl, hq⟩ := List.cons_prefix_cons.1 hbegins
    exact hclear (q, d) (Entry.mem_inside_iff.2 he) hq

theorem Container.cons {token : String} {u₀ u : Value}
    (h : Container c (Entry.inside token es) u₀ u path w) (hes : ∀ e ∈ es, e.1 ≠ [])
    (hbefore : ∀ q x, (q, x) ∈ u₀.parts → (token :: q, x) ∈ before.parts)
    (hparts : ∀ q x, (q, x) ∈ u.parts → (token :: q, x) ∈ v.parts) :
    Container c es before v (token :: path) w := by
  cases h with
  | whole hw => exact .whole (hw.cons hes hbefore)
  | placeholder front i items d hpath hw hd hname hpart hstands =>
    exact .placeholder (token :: front) i items d (by rw [hpath]; rfl) hw
      (Entry.mem_inside_iff.1 hd) hname (hparts _ _ hpart) (hstands.cons hes hbefore)
  | digests front ms texts hpath hw hget hstands =>
    exact .digests (token :: front) ms texts (by rw [hpath]; rfl) hw hget
      (hstands.cons hes hbefore)

theorem container_of_shaped (h : Shaped c es before v) (hpart : (path, w) ∈ v.parts)
    (hw : w.depth ≠ 0) : Container c es before v path w := by
  have hes := ne_nil_of_shaped h
  have hroot := stands_root h
  induction v using Value.induct generalizing es before path with
  | scalar v hv =>
    rw [Value.parts_of_depth_eq_zero hv, List.mem_singleton] at hpart
    cases hpart
    exact absurd hv hw
  | array items ih =>
    rcases Value.mem_parts_array_iff.1 hpart with ⟨rfl, rfl⟩ | ⟨i, u, rel, hi, rfl, hrel⟩
    · exact .whole hroot
    · obtain ⟨u₀, hitem, hbefore⟩ := Concealer.exists_shapedItem h hi
      rcases hitem with ⟨d, hd, hname, rfl⟩ | hu
      · rcases Value.mem_parts_object_iff.1 hrel with ⟨rfl, rfl⟩ | ⟨k, x, rest, hm, -, hx⟩
        · exact .placeholder [] i items d rfl rfl hd hname (Value.self_mem_parts _) hroot
        · cases List.mem_singleton.1 hm
          rw [Value.parts_of_depth_eq_zero rfl, List.mem_singleton] at hx
          cases hx
          exact absurd rfl hw
      · exact (ih u (List.mem_of_getElem? hi) hu hrel (ne_nil_of_shaped hu)
          (stands_root hu)).cons hes hbefore fun q x hx => Value.mem_parts_item hi hx
  | object ms ih =>
    rcases Value.mem_parts_object_iff.1 hpart with ⟨rfl, rfl⟩ | ⟨k, u, rel, hm, rfl, hrel⟩
    · exact .whole hroot
    · obtain ⟨ms₀, rfl, hasc, -, -, hbears, -, hmembers⟩ := h
      by_cases hk : k = Digests.membersName
      · subst hk
        obtain ⟨texts, rfl⟩ := hbears.eq_texts hasc hm
        rcases Value.mem_parts_array_iff.1 hrel with ⟨rfl, rfl⟩ | ⟨i, x, rest, hi, -, hx⟩
        · exact .digests [] ms texts rfl rfl (Members.get?_of_mem hasc hm) hroot
        · obtain ⟨s, -, rfl⟩ := List.mem_map.1 (List.mem_of_getElem? hi)
          rw [Value.parts_of_depth_eq_zero rfl, List.mem_singleton] at hx
          cases hx
          exact absurd rfl hw
      · obtain ⟨u₀, hget, hu⟩ := (shapedMembers_iff.1 hmembers k u hm).resolve_left hk
        exact (ih _ hm hu hrel (ne_nil_of_shaped hu) (stands_root hu)).cons hes
          (fun q x hx => Value.mem_parts_member (Members.mem_of_get? hget) hx)
          fun q x hx => Value.mem_parts_member hm hx

/-- What holds the digest of what was concealed at the path: the object it was a member of, or a
placeholder. -/
inductive Holder (c : Concealer) (es : List Entry) (v : Value) (path : List String) : Prop where
  | object (front : List String) (token : String) (ms : Members) (hpath : path = front ++ [token])
      (hpart : (front, .object ms) ∈ v.parts) (hbears : c.Bears (Entry.ofObject front es) ms)
  | placeholder (d : Disclosure) (hd : (path, d) ∈ es)
      (hpart : (path, Digests.placeholder (c.digest d.encoded)) ∈ v.parts)

theorem Holder.cons {token : String} {u : Value} (h : Holder c (Entry.inside token es) u path)
    (hparts : ∀ q x, (q, x) ∈ u.parts → (token :: q, x) ∈ v.parts) :
    Holder c es v (token :: path) := by
  cases h with
  | object front t ms hpath hpart hbears =>
    refine .object (token :: front) t ms (by rw [hpath]; rfl) (hparts _ _ hpart) ?_
    rwa [← Entry.ofObject_inside]
  | placeholder d hd hpart => exact .placeholder d (Entry.mem_inside_iff.1 hd) (hparts _ _ hpart)

theorem holder_of_shaped (h : Shaped c es before v) {d : Disclosure} (hd : (path, d) ∈ es)
    (hsd : Digests.membersName ∉ path) (hclear : ∀ e ∈ es, e.1 <+: path → e.1 = path) :
    Holder c es v path := by
  induction path generalizing es before v with
  | nil => exact absurd rfl (ne_nil_of_shaped h _ hd)
  | cons token rel ih =>
    have hrel : (rel, d) ∈ Entry.inside token es := Entry.mem_inside_iff.2 hd
    have hsd' : Digests.membersName ∉ rel := fun hm => hsd (List.mem_cons_of_mem _ hm)
    have hclear' : ∀ e ∈ Entry.inside token es, e.1 <+: rel → e.1 = rel := fun e he hbegins =>
      (List.cons.inj (hclear (token :: e.1, e.2) (Entry.mem_inside_iff.1 he)
        (List.cons_prefix_cons.2 ⟨rfl, hbegins⟩))).2
    -- An entry of this very item or member is the one that is looked for.
    have hself {d' : Disclosure} (hd' : ([token], d') ∈ es) : [token] = token :: rel :=
      hclear _ hd' (List.cons_prefix_cons.2 ⟨rfl, List.nil_prefix⟩)
    cases v with
    | array items =>
      obtain ⟨-, -, -, hentries, -⟩ := shaped_array_iff.1 h
      obtain ⟨i, q, heq, hi⟩ := hentries _ hd
      obtain ⟨rfl, rfl⟩ := List.cons.inj heq
      have hget := List.getElem?_eq_getElem hi
      obtain ⟨u₀, hitem, -⟩ := Concealer.exists_shapedItem h hget
      rcases hitem with ⟨d', hd', -, hplaceholder⟩ | hu
      · rw [← hself hd']
        refine .placeholder d' hd' (Value.mem_parts_item hget ?_)
        rw [hplaceholder]
        exact Value.self_mem_parts _
      · exact (ih hu hrel hsd' hclear').cons fun q x hx => Value.mem_parts_item hget hx
    | object ms =>
      obtain ⟨ms₀, -, hasc, -, -, hbears, hentries, hmembers⟩ := h
      obtain ⟨name, q, heq, hstands⟩ := hentries _ hd
      obtain ⟨rfl, rfl⟩ := List.cons.inj heq
      rcases hstands with ⟨d', hd'⟩ | hname
      · rw [← hself hd']
        exact .object [] _ ms rfl (Value.self_mem_parts _) hbears
      · obtain ⟨⟨k, u⟩, hm, rfl⟩ := List.mem_map.1 hname
        have hk : k ≠ Digests.membersName := fun heq => hsd (heq ▸ List.mem_cons_self)
        obtain ⟨u₀, -, hu⟩ := (shapedMembers_iff.1 hmembers k u hm).resolve_left hk
        exact (ih hu hrel hsd' hclear').cons fun q x hx => Value.mem_parts_member hm hx
    | _ =>
      have hes : es = [] := h.2
      rw [hes] at hd
      cases hd

theorem mem_standingIn_of_shaped (h : Shaped c es before v) {d : Disclosure}
    (hd : (path, d) ∈ es) (hsd : Digests.membersName ∉ path)
    (hclear : ∀ e ∈ es, e.1 <+: path → e = (path, d)) :
    c.digest d.encoded ∈ Digests.standingIn v := by
  cases holder_of_shaped h hd hsd fun e he hbegins => by rw [hclear e he hbegins] with
  | object front token ms hpath hpart hbears =>
    subst hpath
    have hof : d ∈ Entry.ofObject front es := Entry.mem_ofObject_iff.2 ⟨token, hd⟩
    rcases hbears with ⟨hnil, -⟩ | ⟨-, draw, texts, hget, -, hperm⟩
    · rw [hnil] at hof
      cases hof
    · refine (Digests.sublist_of_member hpart hget).subset (hperm.mem_iff.2 ?_)
      exact List.mem_append_right _ (List.mem_map.2 ⟨d, hof, rfl⟩)
  | placeholder d' hd' hpart =>
    cases hclear _ hd' (List.prefix_refl _)
    exact Digests.mem_standingIn_of_placeholder hpart

end Shaped

/-! ## Concealed payloads -/

theorem membersName_notMem_decoded {p : Pointer}
    (hts : ∀ t ∈ p.tokens, isReserved t.toDecoded = false) :
    Digests.membersName ∉ p.decoded := by
  intro hm
  obtain ⟨t, ht, heq⟩ := List.mem_map.1 hm
  exact (ne_of_not_isReserved (hts t ht)).1 heq

namespace Concealer
variable {c : Concealer}

theorem referred_concealAll {ps : List Pointer} {claims claims' : Members} {o : Opening}
    {before : Value} {es : List Entry} {draw : Nat} {ds : List Disclosure}
    (hsorted : Value.Sorted (.object claims))
    (ho : Opens (fun _ _ => True) (fun _ => True) o (.object claims)) (hdense : o.Dense)
    (hts : ∀ p ∈ ps, ∀ t ∈ p.tokens, isReserved t.toDecoded = false)
    (hps : ps.Pairwise fun p q => ¬p.decoded <+: q.decoded)
    (hes : ∀ e ∈ es, ∀ p ∈ ps, ¬e.1 <+: p.decoded)
    (hnew : ∀ p ∈ ps, p.decoded ∉ o.paths.map Prod.snd)
    (hclaims : Shaped c es before (.object claims))
    (h : c.concealAll ps claims draw = .ok (claims', ds)) :
    ∀ earlier d later, ds = earlier ++ d :: later →
      c.digest d.encoded ∈ Digests.inMembers claims' ++
        later.flatMap fun d => Digests.inValue d.concealed.value := by
  induction ps generalizing claims o es draw ds with
  | nil =>
    rw [concealAll] at h
    cases h
    intro earlier d later heq
    simp at heq
  | cons p r ih =>
    obtain ⟨htp, htr⟩ := List.forall_mem_cons.1 hts
    obtain ⟨hp, hr⟩ := List.pairwise_cons.1 hps
    obtain ⟨-, d₀, claims₁, draw₁, ds₂, hstep, hrun, rfl⟩ := concealAll_cons_eq_ok_iff.1 h
    have hfresh : ∀ d, (p.decoded, d) ∉ es := fun d hd =>
      hes _ hd p List.mem_cons_self (List.prefix_refl _)
    obtain ⟨hvalue, -⟩ := shaped_concealAt htp hstep hclaims hfresh
    replace hvalue : Shaped c (es ++ [(p.decoded, d₀)]) before (.object claims₁) := hvalue
    obtain ⟨decoys, o₁, hmark⟩ := marked_concealAt hsorted ho hdense htp
      (hnew p List.mem_cons_self) hstep trivial
    have hpaths : o₁.paths.Perm ((c.digest d₀.encoded, p.decoded) :: o.paths) := hmark.paths
    have hnew₁ := notMem_paths_of_perm hpaths (fun hm => hp p hm (List.prefix_refl _)) hnew
    intro earlier d later heq
    cases earlier with
    | cons e earlier =>
      obtain ⟨rfl, rfl⟩ := List.cons.inj heq
      exact ih hmark.sorted hmark.opens hmark.dense htr hr
        (not_prefix_append hes hp) hnew₁ hvalue hrun _ d later rfl
    | nil =>
      obtain ⟨rfl, rfl⟩ := List.cons.inj heq
      have hlast : (p.decoded, d₀) ∈ es ++ [(p.decoded, d₀)] :=
        List.mem_append_right _ (List.mem_singleton_self _)
      have hstands := mem_standingIn_of_shaped hvalue hlast (membersName_notMem_decoded htp)
        fun e he hbegins => by
          rcases List.mem_append.1 he with he | he
          · exact absurd hbegins (hes e he p List.mem_cons_self)
          · exact List.mem_singleton.1 he
      rw [standingIn_of_shaped hvalue] at hstands
      have hdiffer : r.Nodup := by
        refine hr.imp ?_
        rintro a _ hab rfl
        exact hab (List.prefix_refl _)
      obtain ⟨_, hall⟩ := markedAll_concealAll hmark.sorted hmark.opens hmark.dense htr hdiffer
        hnew₁ hrun fun _ _ => trivial
      obtain ⟨new, -, hperm⟩ := hall.digests
      exact hperm.mem_iff.2 (List.mem_append_right _ hstands)

/-- The digests of an object as they are when no two digests are equal: strictly ascending, one for
each disclosure, and the decoys, whose number is fixed. -/
def Holds (c : Concealer) (ds : List Disclosure) (ms : Members) : Prop :=
  ds = [] ∧ Digests.membersName ∉ Members.names ms ∨
    ds ≠ [] ∧ ∃ (draw : Nat) (texts : List String),
      Members.get? ms Digests.membersName = some (.array (texts.map .string)) ∧
      texts.Pairwise (fun s t => s < t) ∧
      texts.Perm (c.decoyDigests draw ++ ds.map fun d => c.digest d.encoded)

theorem Bears.holds {ds : List Disclosure} {ms : Members} (h : c.Bears ds ms)
    (hnodup : ∀ texts : List String,
      Members.get? ms Digests.membersName = some (.array (texts.map .string)) → texts.Nodup) :
    c.Holds ds ms := by
  rcases h with hnone | ⟨hds, draw, texts, hget, hsorted, hperm⟩
  · exact .inl hnone
  · refine .inr ⟨hds, draw, texts, hget, ?_, hperm⟩
    refine (hsorted.and (hnodup texts hget)).imp fun {s t} hst => ?_
    rcases Std.lt_trichotomy s t with hlt | heq | hlt
    · exact hlt
    · exact absurd heq hst.2
    · exact absurd hlt hst.1

end Concealer

namespace Payload
variable {f : DigestFunction} {how : Concealment} {claims : Members} {places : List Pointer}
  {payload : Payload} {ds : List Disclosure}

def standingParts (p : Payload) (es : List Entry) : List (List String × Value) :=
  (Value.object p.claims).parts ++
    es.flatMap fun e => e.2.concealed.value.parts.map fun q => (e.1 ++ q.1, q.2)

def standingDigests (p : Payload) (ds : List Disclosure) : List String :=
  Digests.standingIn (.object p.claims) ++
    ds.flatMap fun d => Digests.standingIn d.concealed.value

/-- The shape of a concealed payload. Each object in it or in a disclosed value is the placeholder
of an item, or has no reserved name but for the digests of the members concealed in it. -/
structure Layout (c : Concealer) (p : Payload) (ps : List Pointer) (ds : List Disclosure) :
    Prop where
  objects : ∀ path ms, (path, .object ms) ∈ p.standingParts (Entry.zip ps ds) →
    (∃ d front i items, (path, d) ∈ Entry.zip ps ds ∧ d.concealed.name? = none ∧
      Value.object ms = Digests.placeholder (c.digest d.encoded) ∧
      path = front ++ [Pointer.indexText i] ∧
      (front, .array items) ∈ p.standingParts (Entry.zip ps ds)) ∨
    Payload.algorithmName ∉ Members.names ms ∧ Digests.placeholderName ∉ Members.names ms ∧
      c.Holds (Entry.ofObject path (Entry.zip ps ds)) ms
  distinct : (p.standingDigests ds).Nodup
  referred : ∀ earlier d later, ds = earlier ++ d :: later →
    (p.standingDigests ds).count (c.digest d.encoded) = 1 ∧
      c.digest d.encoded ∈ p.standingDigests later
  algorithm : p.algorithm.isSome ↔ p.standingDigests ds ≠ []

theorem objects_of_shaped {c : Concealer} {es : List Entry} {before v : Value}
    {path : List String} {ms : Members} (h : Shaped c es before v)
    (hpart : (path, .object ms) ∈ v.parts) (hnodup : (Digests.standingIn v).Nodup) :
    (∃ d front i items, (path, d) ∈ es ∧ d.concealed.name? = none ∧
      Value.object ms = Digests.placeholder (c.digest d.encoded) ∧
      path = front ++ [Pointer.indexText i] ∧ (front, .array items) ∈ v.parts) ∨
    Payload.algorithmName ∉ Members.names ms ∧ Digests.placeholderName ∉ Members.names ms ∧
      c.Holds (Entry.ofObject path es) ms := by
  cases container_of_shaped h hpart (Nat.succ_ne_zero _) with
  | whole hstands =>
    obtain ⟨v₀, -, ms₀, -, -, halg, hdots, hbears, -⟩ := hstands.shaped
    rw [Entry.ofObject_insideAll, List.append_nil] at hbears
    exact .inr ⟨halg, hdots, hbears.holds fun texts hget =>
      (Digests.sublist_of_member hpart hget).nodup hnodup⟩
  | placeholder front i items d hpath hw hd hname hpart' =>
    exact .inl ⟨d, front, i, items, hd, hname, hw, hpath, hpart'⟩
  | digests front ms' texts hpath hw => cases hw

theorem inValue_of_isEmpty (hs : Value.Sorted (.object claims))
    (h : Conceals f how claims places payload ds) (hds : ds = []) :
    Digests.inMembers payload.claims = [] := by
  obtain ⟨hlen, -⟩ := shaped_of_conceals hs h
  rw [hds, List.length_nil] at hlen
  obtain ⟨o, ho⟩ := exists_plain (D := fun _ _ => True) hs h.names
  exact h.claims_of_nil (List.eq_nil_of_length_eq_zero hlen.symm) ▸ ho.inValue

theorem standingDigests_of_conceals (hs : Value.Sorted (.object claims))
    (h : Conceals f how claims places payload ds) {later : List Disclosure}
    (hlater : ∀ d ∈ later, d ∈ ds) :
    payload.standingDigests later = Digests.inMembers payload.claims ++
      later.flatMap fun d => Digests.inValue d.concealed.value := by
  obtain ⟨hlen, hshaped, hdisclosed⟩ := shaped_of_conceals hs h
  rw [standingDigests, standingIn_of_shaped hshaped, Digests.inValue]
  congr 1
  refine List.flatMap_congr fun d hd => ?_
  have hmem := hlater d hd
  rw [← Entry.map_snd_zip hlen] at hmem
  obtain ⟨e, he, rfl⟩ := List.mem_map.1 hmem
  obtain ⟨v₀, -, hvalue⟩ := hdisclosed e he
  exact standingIn_of_shaped hvalue

theorem nodup_standingDigests (hs : Value.Sorted (.object claims))
    (h : Conceals f how claims places payload ds) : (payload.standingDigests ds).Nodup := by
  rw [standingDigests_of_conceals hs h fun _ hd => hd]
  exact h.distinct

theorem mem_standingDigests (hs : Value.Sorted (.object claims))
    (h : Conceals f how claims places payload ds) {earlier later : List Disclosure}
    {d : Disclosure} (hds : ds = earlier ++ d :: later) :
    (concealer f how).digest d.encoded ∈ payload.standingDigests later := by
  have hlater : ∀ d' ∈ later, d' ∈ ds := fun d' hd' => by
    rw [hds]
    exact List.mem_append_right _ (List.mem_cons_of_mem _ hd')
  rw [standingDigests_of_conceals hs h hlater]
  obtain ⟨o, ho⟩ := exists_plain (D := fun _ _ => True) hs h.names
  exact Concealer.referred_concealAll (c := concealer f how) hs ho.opens ho.dense
    (fun p hp => h.tokens p (mem_descending.1 hp)) (pairwise_descending places)
    (fun _ he => absurd he List.not_mem_nil) (by simp [ho.paths])
    (shaped_of_reservedIn? hs h.names) h.run earlier d later hds

theorem count_standingDigests (hs : Value.Sorted (.object claims))
    (h : Conceals f how claims places payload ds) {earlier later : List Disclosure}
    {d : Disclosure} (hds : ds = earlier ++ d :: later) :
    (payload.standingDigests ds).count ((concealer f how).digest d.encoded) = 1 := by
  refine List.count_eq_one_of_mem (nodup_standingDigests hs h) ?_
  have hlater := mem_standingDigests hs h hds
  rw [standingDigests, List.mem_append] at hlater ⊢
  refine hlater.imp_right fun hd => ?_
  rw [hds, List.flatMap_append, List.flatMap_cons]
  exact List.mem_append_right _ (List.mem_append_right _ hd)

theorem objects_of_conceals (hs : Value.Sorted (.object claims))
    (h : Conceals f how claims places payload ds) {path : List String} {ms : Members}
    (hpart : (path, .object ms) ∈ payload.standingParts (Entry.zip (descending places) ds)) :
    (∃ d front i items, (path, d) ∈ Entry.zip (descending places) ds ∧
      d.concealed.name? = none ∧
      Value.object ms = Digests.placeholder ((concealer f how).digest d.encoded) ∧
      path = front ++ [Pointer.indexText i] ∧
      (front, .array items) ∈ payload.standingParts (Entry.zip (descending places) ds)) ∨
    Payload.algorithmName ∉ Members.names ms ∧ Digests.placeholderName ∉ Members.names ms ∧
      (concealer f how).Holds (Entry.ofObject path (Entry.zip (descending places) ds)) ms := by
  obtain ⟨-, hshaped, hdisclosed⟩ := shaped_of_conceals hs h
  obtain ⟨hclaims, hvalues, -⟩ := List.nodup_append.1 (nodup_standingDigests hs h)
  rcases List.mem_append.1 hpart with hpart | hpart
  · rcases objects_of_shaped hshaped hpart hclaims with
      ⟨d, front, i, items, hd, hname, hobject, hpath, harray⟩ | hordinary
    · exact .inl ⟨d, front, i, items, hd, hname, hobject, hpath, List.mem_append_left _ harray⟩
    · exact .inr hordinary
  · obtain ⟨e, he, hpart⟩ := List.mem_flatMap.1 hpart
    obtain ⟨⟨rel, w⟩, hrel, heq⟩ := List.mem_map.1 hpart
    cases heq
    have hmember : e.2 ∈ ds := (List.of_mem_zip he).2
    obtain ⟨v₀, -, hvalue⟩ := hdisclosed e he
    rcases objects_of_shaped hvalue hrel ((List.nodup_flatMap.1 hvalues).1 _ hmember) with
      ⟨d, front, i, items, hd, hname, hobject, rfl, harray⟩ | ⟨halg, hdots, hholds⟩
    · refine .inl ⟨d, e.1 ++ front, i, items, (Entry.mem_below_iff.1 hd).1, hname, hobject,
        (List.append_assoc ..).symm, List.mem_append_right _ ?_⟩
      exact List.mem_flatMap.2 ⟨e, he, List.mem_map.2 ⟨_, harray, rfl⟩⟩
    · rw [Entry.ofObject_below] at hholds
      exact .inr ⟨halg, hdots, hholds⟩

theorem isSome_algorithm_iff (hs : Value.Sorted (.object claims))
    (h : Conceals f how claims places payload ds) :
    payload.algorithm.isSome ↔ payload.standingDigests ds ≠ [] := by
  cases hds : ds with
  | nil =>
    rw [h.algorithm, ← hds, standingDigests_of_conceals hs h fun _ hd => hd]
    simp [inValue_of_isEmpty hs h hds, hds]
  | cons d r =>
    rw [← hds, h.algorithm, hds]
    refine iff_of_true rfl fun hnil => ?_
    have hsplit : ds = [] ++ d :: r := hds
    have hone := count_standingDigests hs h hsplit
    rw [hds, hnil] at hone
    cases hone

/-- Concealing claims lays them out in one shape, whatever they are. -/
theorem layout_of_conceal (f : DigestFunction) (how : Concealment) (claims : Members)
    (places : List Pointer) (payload : Payload) (ds : List Disclosure)
    (hs : Value.Sorted (.object claims))
    (h : conceal f how claims places = .ok (payload, ds)) :
    ∃ ps, ps.Pairwise (fun p q => q < p) ∧ (∀ p, p ∈ ps ↔ p ∈ places) ∧
      ds.length = ps.length ∧ Layout (concealer f how) payload ps ds := by
  have hc := conceals_of_conceal h
  obtain ⟨hlen, -⟩ := shaped_of_conceals hs hc
  refine ⟨descending places, pairwise_ascending_reverse places, fun p => mem_descending, hlen,
    fun path ms hpart => objects_of_conceals hs hc hpart, nodup_standingDigests hs hc,
    fun earlier d later hds => ⟨?_, mem_standingDigests hs hc hds⟩, isSome_algorithm_iff hs hc⟩
  exact count_standingDigests hs hc hds

def layeredClaims : Members :=
  [("a", .object [("b", .array [.bool true, .null])]), ("c", .null)]

def layeredPlaces : List Pointer :=
  [⟨"/a", by decide⟩, ⟨"/a/b/1", by decide⟩, ⟨"/c", by decide⟩, ⟨"/a/b", by decide⟩]

theorem sorted_layeredClaims : Value.Sorted (.object layeredClaims) := by
  refine ⟨show List.Pairwise _ _ by decide, ?_⟩
  simp [layeredClaims, Value.Sorted, Value.SortedMembers, Value.SortedItems, Members.Ascending]

/-- With a decoy for each object. -/
theorem layout_of_conceal_layered :
    ∃ payload ds, conceal HashAlgorithm.digest ⟨.sha256, 1, fun n => [UInt8.ofNat n]⟩
        layeredClaims layeredPlaces = .ok (payload, ds) ∧
      ∃ ps, ps.Pairwise (fun p q => q < p) ∧ (∀ p, p ∈ ps ↔ p ∈ layeredPlaces) ∧
        ds.length = ps.length ∧ Layout (concealer HashAlgorithm.digest
          ⟨.sha256, 1, fun n => [UInt8.ofNat n]⟩) payload ps ds := by
  have hok : (conceal HashAlgorithm.digest ⟨.sha256, 1, fun n => [UInt8.ofNat n]⟩
      layeredClaims layeredPlaces).isOk = true := by decide +kernel
  obtain ⟨⟨payload, ds⟩, hc⟩ := exists_ok hok
  exact ⟨payload, ds, hc, layout_of_conceal _ _ _ _ _ _ sorted_layeredClaims hc⟩

end Payload

end SelectiveDisclosure
