import SelectiveDisclosure.Proofs.Claims.Marking

/-!
# Steps of concealment

Concealing at one place takes a value that opens to a tree to one that opens to the same tree with
one mark more, whose path is that of the place.
-/

set_option autoImplicit false

namespace SelectiveDisclosure

open Json Reveal

theorem ne_of_not_isReserved {name : String} (h : isReserved name = false) :
    name ≠ Digests.membersName ∧ name ≠ Digests.placeholderName ∧ name ≠ Payload.algorithmName := by
  simpa [isReserved, reservedNames, Digests.membersName, Digests.placeholderName,
    Payload.algorithmName] using h

theorem Digests.sorted_placeholder (g : String) : Value.Sorted (placeholder g) :=
  Value.sorted_singleton_iff.2 trivial

theorem placeholder?_eq_none_of_mem {ms : Members} {m : String × Value} (hm : m ∈ ms)
    (hne : m.1 ≠ Digests.placeholderName) : Digests.placeholder? (.object ms) = none := by
  cases hp : Digests.placeholder? (.object ms) with
  | none => rfl
  | some g =>
    have hms := Value.object.inj (Digests.eq_placeholder hp)
    rw [hms, List.mem_singleton] at hm
    exact absurd (by rw [hm]) hne

theorem inMembers_of_digestTexts? {ms : Members} {ds : List String} (h : Members.Ascending ms)
    (hds : digestTexts? ms = some ds) :
    (Digests.inMembers ms).Perm
      (ds ++ Digests.inMembers (Members.erase ms Digests.membersName)) := by
  rcases digestTexts?_eq_some_iff.1 hds with ⟨hnone, rfl⟩ | hsome
  · rw [Members.erase_of_notMem (Members.get?_eq_none_iff.1 hnone)]
    exact List.Perm.refl _
  · apply (Digests.inMembers_perm (Members.perm_of_get? h hsome)).trans
    rw [Digests.inMembers, if_pos rfl, Digests.textsOf_strings]

/-- A step of concealment: the value opens to the tree with one mark more, and the digests in it
and in the disclosed value are those before with the new ones. -/
structure Marked (D : String → Concealed → Prop) (g : String) (path decoys : List String)
    (disclosed before after : Value) (o o' : Opening) : Prop where
  opens : Opens D (fun _ => True) o' after
  dense : o'.Dense
  value : o'.value = o.value
  paths : o'.paths.Perm ((g, path) :: o.paths)
  digests : o'.digests.Perm (g :: (decoys ++ o.digests))
  inValue : (Digests.inValue after ++ Digests.inValue disclosed).Perm
    (g :: (decoys ++ Digests.inValue before))
  sorted : Value.Sorted after
  notPlaceholder : Digests.placeholder? after = none

/-! ## Members -/

/-- An object opens to a tree with a clear member between others. -/
structure MemberAmong (D : String → Concealed → Prop) (ms : Members) (k : String) (v : Value)
    (withheld ds : List String) (ma mb : List (String × Option String × Opening)) (o : Opening)
    (as bs : List (String × Option String × Value)) : Prop where
  before : OpensMembers D (fun _ => True) ma as
  here : Opens D (fun _ => True) o v
  behind : OpensMembers D (fun _ => True) mb bs
  texts : digestTexts? ms = some ds
  own : own ms = clearOf as ++ (k, v) :: clearOf bs
  ascending : Members.Ascending (as ++ (k, none, v) :: bs)
  marks : ds.Perm (marksOf (as ++ bs) ++ withheld)

theorem exists_memberAmong {D : String → Concealed → Prop} {ms : Members} {withheld : List String}
    {members : List (String × Option String × Opening)} {k : String} {v : Value}
    (h : Opens D (fun _ => True) (.object withheld members) (.object ms))
    (hg : Members.get? ms k = some v) (hk : isReserved k = false) :
    ∃ ds ma mb o as bs, members = ma ++ (k, none, o) :: mb ∧
      MemberAmong D ms k v withheld ds ma mb o as bs := by
  obtain ⟨hsd, -, halg⟩ := ne_of_not_isReserved hk
  obtain ⟨ms', ds, slots, heq, htexts, hclear, hasc, hperm, -, hmembers⟩ := h
  cases heq
  have hown : (k, v) ∈ own ms :=
    mem_own_iff.2 ⟨Members.mem_of_get? hg, hsd, halg⟩
  rw [← hclear] at hown
  obtain ⟨⟨k', mark, v'⟩, hs, hkv⟩ := List.mem_filterMap.1 hown
  cases mark with
  | some g => cases hkv
  | none =>
    cases hkv
    obtain ⟨as, bs, rfl⟩ := List.append_of_mem hs
    obtain ⟨ma, mb', rfl, ha, hb⟩ := Opening.opensMembers_append.1 hmembers
    cases mb' with
    | nil => rw [OpensMembers] at hb; cases hb
    | cons m mb =>
      obtain ⟨k'', mark', o⟩ := m
      obtain ⟨v', rest, heq, -, ho, hr⟩ := hb
      cases heq
      refine ⟨ds, ma, mb, o, as, bs, rfl, ha, ho, hr, htexts, ?_, hasc, ?_⟩
      · rw [← hclear, clearOf_append, clearOf_cons_none]
      · exact hperm.trans ((Opening.marksOf_middle _ none _ as bs).append_right _)

/-- What changes in one member changes in the object, whose digests gain the mark of the member, if
it has one now, and the decoys `fresh`. -/
theorem marked_slot {D : String → Concealed → Prop} {g name : String}
    {path decoys ds ds' withheld : List String} {u v v' : Value} {ms ms' : Members}
    {ma mb : List (String × Option String × Opening)} {m : Option String} {o o' : Opening}
    {as bs : List (String × Option String × Value)} (fresh : List String)
    (hm : MemberAmong D ms name v withheld ds ma mb o as bs)
    (hall : (Opening.object withheld (ma ++ (name, none, o) :: mb)).Dense)
    (htexts : digestTexts? ms' = some ds') (hown : own ms' = clearOf (as ++ (name, m, v') :: bs))
    (hds : ds'.Perm (m.toList ++ fresh ++ ds)) (hmark : ∀ g', m = some g' → D g' (.member name v'))
    (hopens : Opens D (fun _ => True) o' v') (hdense : o'.Dense) (hvalue : o'.value = o.value)
    (hpaths : (Opening.slotPaths name m o').Perm ((g, path) :: Opening.slotPaths name none o))
    (hdigests : (m.toList ++ fresh ++ o'.digests).Perm (g :: (decoys ++ o.digests)))
    (hin : (Digests.inMembers ms' ++ Digests.inValue u).Perm
      (g :: (decoys ++ Digests.inMembers ms)))
    (hsorted : Value.Sorted (.object ms'))
    (hplaceholder : Digests.placeholder? (.object ms') = none) :
    Marked D g path decoys u (.object ms) (.object ms')
      (.object withheld (ma ++ (name, none, o) :: mb))
      (.object (fresh ++ withheld) (ma ++ (name, m, o') :: mb)) := by
  refine ⟨⟨_, ds', as ++ (name, m, v') :: bs, rfl, htexts, hown.symm, ?_, ?_, fun _ _ => trivial, ?_⟩,
    ?_, ?_, ?_, ?_, hin, hsorted, hplaceholder⟩
  · refine (ascending_iff_of_names ?_).1 hm.ascending
    simp [Members.names]
  · apply List.perm_iff_count.2
    intro a
    have h₁ := hds.count_eq a
    have h₂ := hm.marks.count_eq a
    have h₃ := (Opening.marksOf_middle name m v' as bs).count_eq a
    simp only [List.count_append] at *
    omega
  · exact Opening.opensMembers_append.2 ⟨ma, _, rfl, hm.before, v', bs, rfl, hmark, hopens,
      hm.behind⟩
  · rw [Opening.dense_object_middle] at hall ⊢
    exact ⟨hall.1, hdense, hall.2.2⟩
  · simp only [Opening.value, Opening.memberValues_append, Opening.memberValues, hvalue]
  · apply (Opening.perm_paths_middle name m o' ma mb).trans
    refine List.Perm.trans ?_ ((Opening.perm_paths_middle name none o ma mb).symm.cons _)
    exact hpaths.append_right _
  · apply List.perm_iff_count.2
    intro a
    have h₁ := (Opening.marksOf_middle name m o' ma mb).count_eq a
    have h₂ := (Opening.marksOf_middle name none o ma mb).count_eq a
    have h₃ := (Opening.memberDigests_middle name m o' ma mb).count_eq a
    have h₄ := (Opening.memberDigests_middle name none o ma mb).count_eq a
    have h₅ := hdigests.count_eq a
    simp only [Opening.digests, List.count_append, List.count_cons, Option.toList_none,
      List.count_nil] at *
    omega

theorem MemberAmong.ascending_clear {D : String → Concealed → Prop} {ms : Members} {k : String}
    {v : Value} {withheld ds : List String} {ma mb : List (String × Option String × Opening)}
    {o : Opening} {as bs : List (String × Option String × Value)}
    (hm : MemberAmong D ms k v withheld ds ma mb o as bs) (h : Members.Ascending ms) :
    Members.Ascending (clearOf as ++ (k, v) :: clearOf bs) := by
  rw [← hm.own]
  exact Members.ascending_erase (Members.ascending_erase h)

namespace Concealer
variable {c : Concealer}

theorem addDigest_cases {ms : Members} {ds : List String} (h : digestTexts? ms = some ds)
    (g : String) (draw : Nat) :
    ∃ (old texts : List String) (draw' : Nat),
      c.addDigest g ms draw =
        (Members.insert Digests.membersName (.array (texts.map .string)) ms, draw') ∧
      sortedDigests ((old ++ [g]).map .string) = texts.map .string ∧ texts.Perm (old ++ [g]) ∧
      (Members.get? ms Digests.membersName = none ∧
          old = (List.range c.decoys).map (fun i => c.digest (Octets.ofText (c.salt (draw + i)))) ∨
        Members.get? ms Digests.membersName = some (.array (ds.map .string)) ∧ old = ds) := by
  rcases digestTexts?_eq_some_iff.1 h with ⟨hnone, -⟩ | hsome
  · obtain ⟨texts, htexts, hperm⟩ := sortedDigests_strings
      ((List.range c.decoys).map (fun i => c.digest (Octets.ofText (c.salt (draw + i)))) ++ [g])
    refine ⟨_, texts, draw + c.decoys, ?_, htexts, hperm, .inl ⟨hnone, rfl⟩⟩
    simp only [addDigest, hnone, ← htexts, List.map_append, List.map_map]
    rfl
  · obtain ⟨texts, htexts, hperm⟩ := sortedDigests_strings (ds ++ [g])
    refine ⟨ds, texts, draw, ?_, htexts, hperm, .inr ⟨hsome, rfl⟩⟩
    simp only [addDigest, hsome, ← htexts, List.map_append]
    rfl

theorem addDigest_spec {ms : Members} {ds : List String} (h : digestTexts? ms = some ds)
    (g : String) (draw : Nat) :
    ∃ (decoys ds' : List String) (draw' : Nat),
      c.addDigest g ms draw =
        (Members.insert Digests.membersName (.array (ds'.map .string)) ms, draw') ∧
      ds'.Perm (g :: (decoys ++ ds)) := by
  obtain ⟨old, texts, draw', hadd, -, hperm, hold⟩ := addDigest_cases h g draw
  rcases hold with ⟨hnone, -⟩ | ⟨-, rfl⟩
  · rcases digestTexts?_eq_some_iff.1 h with ⟨-, rfl⟩ | hsome
    · refine ⟨old, texts, draw', hadd, ?_⟩
      rw [List.append_nil]
      exact hperm.trans List.perm_append_comm
    · rw [hnone] at hsome
      cases hsome
  · exact ⟨[], texts, draw', hadd, hperm.trans List.perm_append_comm⟩

theorem concealMember_eq_some_iff {name : String} {ms : Members} {draw : Nat} {step : Step} :
    c.concealMember name ms draw = some step ↔
      ∃ v left draw', Members.get? ms name = some v ∧
        c.addDigest (c.digest (Disclosure.ofParts (c.salt draw) (.member name v)).encoded)
          (Members.erase ms name) (draw + 1) = (left, draw') ∧
        step = ⟨.ofParts (c.salt draw) (.member name v), .object left, draw'⟩ := by
  simp only [concealMember, Option.bind_eq_bind, Option.bind_eq_some_iff]
  constructor
  · rintro ⟨v, hget, h⟩
    exact ⟨v, _, _, hget, rfl, (Option.some.inj h).symm⟩
  · rintro ⟨v, left, draw', hget, hleft, rfl⟩
    exact ⟨v, hget, by rw [hleft]; rfl⟩

theorem concealItem_eq_some_iff {i : Nat} {items : List Value} {draw : Nat} {step : Step} :
    c.concealItem i items draw = some step ↔
      ∃ v, items[i]? = some v ∧ step = ⟨.ofParts (c.salt draw) (.item v),
        .array (items.set i (Digests.placeholder
          (c.digest (Disclosure.ofParts (c.salt draw) (.item v)).encoded))), draw + 1⟩ := by
  simp only [concealItem, Option.bind_eq_bind, Option.bind_eq_some_iff]
  exact exists_congr fun v => and_congr_right fun _ => Option.some_inj.trans eq_comm

theorem marked_concealMember {D : String → Concealed → Prop} {name : String} {ms : Members}
    {withheld : List String} {members : List (String × Option String × Opening)} {draw : Nat}
    {step : Step} (hsorted : Value.Sorted (.object ms))
    (ho : Opens D (fun _ => True) (.object withheld members) (.object ms))
    (hdense : (Opening.object withheld members).Dense) (hname : isReserved name = false)
    (h : c.concealMember name ms draw = some step)
    (hD : D (c.digest step.disclosure.encoded) step.disclosure.concealed) :
    ∃ decoys o', Marked D (c.digest step.disclosure.encoded) [name] decoys
      step.disclosure.concealed.value (.object ms) step.value (.object withheld members) o' := by
  obtain ⟨hsd, -, -⟩ := ne_of_not_isReserved hname
  obtain ⟨hasc, hvalues⟩ := Value.sorted_object_iff.1 hsorted
  obtain ⟨v, left, _, hget, hleft, rfl⟩ := concealMember_eq_some_iff.1 h
  obtain ⟨ds, ma, mb, o, as, bs, rfl, hm⟩ := exists_memberAmong ho hget hname
  have hrest : Members.Ascending (Members.erase ms name) := Members.ascending_erase hasc
  have htexts : digestTexts? (Members.erase ms name) = some ds := by
    rw [digestTexts?, Members.get?_erase_of_ne hsd]
    exact hm.texts
  obtain ⟨decoys, ds', draw', hadd, hperm⟩ := addDigest_spec (c := c) htexts
    (c.digest (Disclosure.ofParts (c.salt draw) (.member name v)).encoded) (draw + 1)
  cases hadd.symm.trans hleft
  generalize c.digest (Disclosure.ofParts (c.salt draw) (.member name v)).encoded = g at hD hperm ⊢
  have hgetNew : Members.get? (Members.insert Digests.membersName (.array (ds'.map .string))
      (Members.erase ms name)) Digests.membersName = some (.array (ds'.map .string)) :=
    Members.get?_insert_self
  have htextsNew := digestTexts?_eq_some_iff.2 (.inr hgetNew)
  have hsortedRest : Value.Sorted (.object (Members.erase ms name)) :=
    Value.sorted_object_iff.2 ⟨hrest, fun m hm => hvalues m (Members.mem_erase.1 hm).1⟩
  have hdisclosed : D g (.member name v) := hD
  refine ⟨decoys, _, marked_slot (m := some g) decoys hm hdense htextsNew ?_ hperm
    (fun _ hg => Option.some.inj hg ▸ hdisclosed) hm.here
    (Opening.dense_object_middle.1 hdense).2.1 rfl (.refl _) (.refl _) ?_
    (Value.sorted_insert (Value.sorted_strings ds') hsortedRest) ?_⟩
  · rw [own, Members.erase_comm, Members.erase_insert_self, Members.erase_comm,
      Members.erase_comm _ name, Members.erase_comm _ name, ← own, hm.own,
      Members.erase_append_cons (hm.ascending_clear hasc), clearOf_append, clearOf_cons_some]
  · apply List.perm_iff_count.2
    intro a
    have h₁ := hperm.count_eq a
    have h₂ := (inMembers_of_digestTexts? (Members.ascending_insert hrest) htextsNew).count_eq a
    have h₃ := (inMembers_of_digestTexts? hrest htexts).count_eq a
    have h₄ := (Digests.inMembers_perm (Members.perm_of_get? hasc hget)).count_eq a
    rw [Members.erase_insert_self] at h₂
    rw [Digests.inMembers, if_neg hsd] at h₄
    simp only [Disclosure.ofParts, Concealed.value, List.count_append, List.count_cons] at *
    omega
  · have hne : Digests.membersName ≠ Digests.placeholderName := by decide
    exact placeholder?_eq_none_of_mem (Members.mem_of_get? hgetNew) hne

end Concealer

theorem Marked.member {D : String → Concealed → Prop} {g name : String}
    {path decoys : List String} {u v v' : Value} {ms : Members}
    {withheld ds : List String} {ma mb : List (String × Option String × Opening)} {o o' : Opening}
    {as bs : List (String × Option String × Value)} (h : Marked D g path decoys u v v' o o')
    (hsorted : Value.Sorted (.object ms)) (hname : isReserved name = false)
    (hget : Members.get? ms name = some v)
    (hm : MemberAmong D ms name v withheld ds ma mb o as bs)
    (hdense : (Opening.object withheld (ma ++ (name, none, o) :: mb)).Dense) :
    Marked D g (name :: path) decoys u (.object ms) (.object (Members.insert name v' ms))
      (.object withheld (ma ++ (name, none, o) :: mb))
      (.object withheld (ma ++ (name, none, o') :: mb)) := by
  obtain ⟨hsd, hplace, halg⟩ := ne_of_not_isReserved hname
  obtain ⟨hasc, -⟩ := Value.sorted_object_iff.1 hsorted
  refine marked_slot [] hm hdense ?_ ?_ (.refl _) (fun _ hg => nomatch hg) h.opens
    h.dense h.value (h.paths.map _) h.digests ?_ (Value.sorted_insert h.sorted hsorted) ?_
  · rw [digestTexts?, Members.get?_insert_of_ne hsd]
    exact hm.texts
  · rw [own, Members.erase_insert_of_ne halg hasc,
      Members.erase_insert_of_ne hsd (Members.ascending_erase hasc), ← own, hm.own,
      Members.insert_append_cons (hm.ascending_clear hasc), clearOf_append, clearOf_cons_none]
  · apply List.perm_iff_count.2
    intro a
    have h₁ := (Digests.inMembers_perm (Members.perm_insert_erase (k := name) (v := v')
      hasc)).count_eq a
    have h₂ := (Digests.inMembers_perm (Members.perm_of_get? hasc hget)).count_eq a
    have h₃ := h.inValue.count_eq a
    rw [Digests.inMembers, if_neg hsd] at h₁ h₂
    simp only [List.count_append, List.count_cons] at *
    omega
  · exact placeholder?_eq_none_of_mem (Members.mem_of_get? Members.get?_insert_self) hplace

/-! ## Items -/

structure ItemAmong (D : String → Concealed → Prop) (i : Nat) (v : Value) (ia ib : List Value)
    (ca cb : List (Cell Opening)) (mark : Option String) (o : Opening) : Prop where
  lengthItems : ia.length = i
  lengthCells : ca.length = i
  before : OpensItems D (fun _ => True) ca ia
  behind : OpensItems D (fun _ => True) cb ib
  denseBefore : Opening.DenseCells ca
  dense : o.Dense
  denseBehind : Opening.DenseCells cb
  marked : Digests.placeholder? v = mark
  here : mark = none → Opens D (fun _ => True) o v

theorem exists_itemAmong {D : String → Concealed → Prop} {items : List Value}
    {cells : List (Cell Opening)} {i : Nat} {v : Value}
    (h : Opens D (fun _ => True) (.array cells) (.array items)) (hi : items[i]? = some v)
    (hdense : (Opening.array cells).Dense) :
    ∃ ia ib ca cb mark o, items = ia ++ v :: ib ∧ cells = ca ++ Opening.cellOf mark o :: cb ∧
      ItemAmong D i v ia ib ca cb mark o := by
  obtain ⟨items', heq, hitems⟩ := h
  cases heq
  obtain ⟨hlt, rfl⟩ := List.getElem?_eq_some_iff.1 hi
  have hsplit : items = items.take i ++ items[i] :: items.drop (i + 1) := by
    rw [List.getElem_cons_drop, List.take_append_drop]
  have hlen : (items.take i).length = i := by
    rw [List.length_take]
    omega
  generalize items[i] = v at hsplit ⊢
  rw [hsplit] at hitems
  obtain ⟨ca, cb', rfl, hca, ha, hb⟩ := Opening.opensItems_append.1 hitems
  rw [Opening.Dense, Opening.denseCells_append] at hdense
  cases cb' with
  | nil => rw [OpensItems] at hb; cases hb
  | cons c cb =>
    cases c with
    | clear o =>
      obtain ⟨u, rest, heq, hp, ho, hr⟩ := hb
      cases heq
      exact ⟨_, _, ca, cb, none, o, hsplit, rfl, hlen, hca.trans hlen, ha, hr, hdense.1,
        hdense.2.1, hdense.2.2, hp, fun _ => ho⟩
    | disclosed g o =>
      obtain ⟨u, rest, heq, hp, -, hr⟩ := hb
      cases heq
      exact ⟨_, _, ca, cb, some g, o, hsplit, rfl, hlen, hca.trans hlen, ha, hr, hdense.1,
        hdense.2.1, hdense.2.2, hp, fun h => absurd h (Option.some_ne_none g)⟩
    | withheld g => exact hdense.2.elim

theorem marked_item {D : String → Concealed → Prop} {g : String} {path decoys : List String}
    {i : Nat} {u v v' : Value} {ia ib : List Value} {ca cb : List (Cell Opening)}
    {m : Option String} {o o' : Opening} (hm : ItemAmong D i v ia ib ca cb none o)
    (hsorted : Value.Sorted (.array (ia ++ v :: ib))) (hsorted' : Value.Sorted v')
    (hopens : OpensItems D (fun _ => True) [Opening.cellOf m o'] [v'])
    (hdense : o'.Dense) (hvalue : o'.value = o.value)
    (hpaths : (Opening.slotPaths (Pointer.indexText i) m o').Perm
      ((g, path) :: Opening.slotPaths (Pointer.indexText i) none o))
    (hdigests : (m.toList ++ o'.digests).Perm (g :: (decoys ++ o.digests)))
    (hin : (Digests.ofItem v' ++ Digests.inValue u).Perm (g :: (decoys ++ Digests.ofItem v))) :
    Marked D g path decoys u (.array (ia ++ v :: ib)) (.array (ia ++ v' :: ib))
      (.array (ca ++ Opening.cellOf none o :: cb)) (.array (ca ++ Opening.cellOf m o' :: cb)) := by
  refine ⟨⟨_, rfl, ?_⟩, ?_, ?_, ?_, ?_, ?_, ?_, rfl⟩
  · refine Opening.opensItems_append.2 ⟨ca, _, rfl, by rw [hm.lengthCells, hm.lengthItems],
      hm.before, ?_⟩
    exact Opening.opensItems_append.2 ⟨[_], cb, rfl, rfl, hopens, hm.behind⟩
  · exact Opening.dense_array_middle.2 ⟨hm.denseBefore, hdense, hm.denseBehind⟩
  · simp only [Opening.value, Opening.cellValues_append]
    cases m <;> simp [Opening.cellOf, Opening.cellValues, hvalue]
  · apply (Opening.perm_cellPaths_middle m o' cb hm.denseBefore).trans
    refine List.Perm.trans ?_ ((Opening.perm_cellPaths_middle none o cb hm.denseBefore).symm.cons _)
    rw [hm.lengthCells]
    exact hpaths.append_right _
  · apply List.perm_iff_count.2
    intro a
    have h₁ := (Opening.cellDigests_middle m o' ca cb).count_eq a
    have h₂ := (Opening.cellDigests_middle none o ca cb).count_eq a
    have h₃ := hdigests.count_eq a
    simp only [Opening.digests, List.count_append, List.count_cons, Option.toList_none,
      List.count_nil] at *
    omega
  · apply List.perm_iff_count.2
    intro a
    have h₁ := hin.count_eq a
    simp only [Digests.inValue, Digests.inItems_eq_flatMap, List.flatMap_append,
      List.flatMap_cons, List.count_append, List.count_cons] at *
    omega
  · rw [Value.sorted_array_iff] at hsorted ⊢
    intro w hw
    rcases List.mem_append.1 hw with hw | hw
    · exact hsorted w (List.mem_append_left _ hw)
    · rcases List.mem_cons.1 hw with rfl | hw
      · exact hsorted'
      · exact hsorted w (List.mem_append_right _ (List.mem_cons_of_mem _ hw))

theorem ofItem_of_not_placeholder {v : Value} (h : Digests.placeholder? v = none) :
    Digests.ofItem v = Digests.inValue v := by
  rw [Digests.ofItem, h]

theorem ItemAmong.set_eq {D : String → Concealed → Prop} {i : Nat} {v : Value} {ia ib : List Value}
    {ca cb : List (Cell Opening)} {mark : Option String} {o : Opening}
    (hm : ItemAmong D i v ia ib ca cb mark o) (w : Value) :
    (ia ++ v :: ib).set i w = ia ++ w :: ib := by
  rw [← hm.lengthItems]
  simp

theorem Marked.item {D : String → Concealed → Prop} {g : String} {path decoys : List String}
    {i : Nat} {u v v' : Value} {ia ib : List Value} {ca cb : List (Cell Opening)} {o o' : Opening}
    (h : Marked D g path decoys u v v' o o') (hsorted : Value.Sorted (.array (ia ++ v :: ib)))
    (hm : ItemAmong D i v ia ib ca cb none o) :
    Marked D g (Pointer.indexText i :: path) decoys u (.array (ia ++ v :: ib))
      (.array ((ia ++ v :: ib).set i v')) (.array (ca ++ Opening.cellOf none o :: cb))
      (.array (ca ++ Opening.cellOf none o' :: cb)) := by
  rw [hm.set_eq]
  refine marked_item (m := none) hm hsorted h.sorted
    ⟨_, [], rfl, h.notPlaceholder, h.opens, by rw [OpensItems]⟩ h.dense h.value (h.paths.map _)
    h.digests ?_
  rw [ofItem_of_not_placeholder hm.marked, ofItem_of_not_placeholder h.notPlaceholder]
  exact h.inValue

namespace Concealer
variable {c : Concealer}

theorem marked_concealItem {D : String → Concealed → Prop} {items : List Value}
    {cells : List (Cell Opening)} {i draw : Nat} {step : Step}
    (hsorted : Value.Sorted (.array items))
    (ho : Opens D (fun _ => True) (.array cells) (.array items))
    (hdense : (Opening.array cells).Dense)
    (hnew : [Pointer.indexText i] ∉ (Opening.array cells).paths.map Prod.snd)
    (h : c.concealItem i items draw = some step)
    (hD : D (c.digest step.disclosure.encoded) step.disclosure.concealed) :
    ∃ o', Marked D (c.digest step.disclosure.encoded) [Pointer.indexText i] []
      step.disclosure.concealed.value (.array items) step.value (.array cells) o' := by
  obtain ⟨v, hi, rfl⟩ := concealItem_eq_some_iff.1 h
  obtain ⟨ia, ib, ca, cb, mark, o, rfl, rfl, hm⟩ := exists_itemAmong ho hi hdense
  cases mark with
  | some g =>
    refine absurd ?_ hnew
    rw [Opening.paths, ((Opening.perm_cellPaths_middle (some g) o cb hm.denseBefore).map _).mem_iff,
      hm.lengthCells]
    simp [Opening.slotPaths]
  | none =>
    generalize c.digest (Disclosure.ofParts (c.salt draw) (.item v)).encoded = g at hD ⊢
    simp only [hm.set_eq]
    refine ⟨_, marked_item (m := some g) hm hsorted (Digests.sorted_placeholder g) ?_ hm.dense rfl
      (.refl _) (.refl _) ?_⟩
    · exact ⟨_, [], rfl, Digests.placeholder?_placeholder g, ⟨v, hD, hm.here rfl⟩, by
        rw [OpensItems]⟩
    · rw [Digests.ofItem, Digests.placeholder?_placeholder, ofItem_of_not_placeholder hm.marked]
      exact List.Perm.refl _

/-! ## One place -/

/-- How concealing at a place succeeds: in the value itself when one token is left, and otherwise
in what the first token leads to. -/
inductive ConcealsAt (c : Concealer) (draw : Nat) :
    List Pointer.Token → Value → Step → Prop where
  | member {t : Pointer.Token} {ms : Members} {step : Step}
      (h : c.concealMember t.toDecoded ms draw = some step) :
      ConcealsAt c draw [t] (.object ms) step
  | item {t : Pointer.Token} {i : Nat} {items : List Value} {step : Step}
      (hi : t.index? = some i) (h : c.concealItem i items draw = some step) :
      ConcealsAt c draw [t] (.array items) step
  | inMember {t : Pointer.Token} {rest : List Pointer.Token} {ms : Members} {v : Value}
      {step : Step} (hget : Members.get? ms t.toDecoded = some v)
      (h : ConcealsAt c draw rest v step) :
      ConcealsAt c draw (t :: rest) (.object ms)
        { step with value := .object (Members.insert t.toDecoded step.value ms) }
  | inItem {t : Pointer.Token} {rest : List Pointer.Token} {i : Nat} {items : List Value}
      {v : Value} {step : Step} (hi : t.index? = some i) (hget : items[i]? = some v)
      (h : ConcealsAt c draw rest v step) :
      ConcealsAt c draw (t :: rest) (.array items)
        { step with value := .array (items.set i step.value) }

theorem ConcealsAt.ne_nil {ts : List Pointer.Token} {v : Value} {draw : Nat} {step : Step}
    (h : c.ConcealsAt draw ts v step) : ts ≠ [] := by
  cases h <;> exact List.cons_ne_nil _ _

theorem ConcealsAt.map_ne_nil {ts : List Pointer.Token} {v : Value} {draw : Nat} {step : Step}
    (h : c.ConcealsAt draw ts v step) : ts.map Pointer.Token.toDecoded ≠ [] :=
  fun hnil => h.ne_nil (List.map_eq_nil_iff.1 hnil)

theorem concealAt_eq_some_iff {ts : List Pointer.Token} {v : Value} {draw : Nat} {step : Step} :
    c.concealAt ts v draw = some step ↔ c.ConcealsAt draw ts v step := by
  constructor
  · intro h
    induction ts generalizing v step with
    | nil => cases v <;> cases h
    | cons t rest ih =>
      cases v with
      | object ms =>
        cases rest with
        | nil => exact .member h
        | cons t' rest =>
          simp only [concealAt, Option.bind_eq_bind, Option.bind_eq_some_iff] at h
          obtain ⟨v, hget, step', hstep, h⟩ := h
          obtain rfl := Option.some.inj h
          exact .inMember hget (ih hstep)
      | array items =>
        cases rest with
        | nil =>
          obtain ⟨i, hi, h⟩ := Option.bind_eq_some_iff.1 h
          exact .item hi h
        | cons t' rest =>
          simp only [concealAt, Option.bind_eq_bind, Option.bind_eq_some_iff] at h
          obtain ⟨i, hi, v, hget, step', hstep, h⟩ := h
          obtain rfl := Option.some.inj h
          exact .inItem hi hget (ih hstep)
      | _ => cases rest <;> cases h
  · intro h
    induction h with
    | member h => exact h
    | item hi h => simp [concealAt, hi, h]
    | @inMember t rest ms v step hget h ih =>
      obtain ⟨t', rest, rfl⟩ := List.exists_cons_of_ne_nil h.ne_nil
      simp [concealAt, hget, ih]
    | @inItem t rest i items v step hi hget h ih =>
      obtain ⟨t', rest, rfl⟩ := List.exists_cons_of_ne_nil h.ne_nil
      simp [concealAt, hi, hget, ih]

theorem not_concealsAt_placeholder {ts : List Pointer.Token} {draw : Nat} {step : Step}
    (hts : ∀ t ∈ ts, isReserved t.toDecoded = false) (g : String) :
    ¬c.ConcealsAt draw ts (Digests.placeholder g) step := by
  have hget {t : Pointer.Token} (ht : isReserved t.toDecoded = false) :
      Members.get? [(Digests.placeholderName, Value.string g)] t.toDecoded = none := by
    rw [Members.get?, if_neg (ne_of_not_isReserved ht).2.1.symm, Members.get?]
  rw [Digests.placeholder]
  intro h
  cases h with
  | member h => simp [concealMember, hget (hts _ List.mem_cons_self)] at h
  | inMember hsome h =>
    rw [hget (hts _ List.mem_cons_self)] at hsome
    cases hsome

theorem marked_concealAt {D : String → Concealed → Prop} {ts : List Pointer.Token} {v : Value}
    {o : Opening} {draw : Nat} {step : Step} (hsorted : Value.Sorted v)
    (ho : Opens D (fun _ => True) o v) (hdense : o.Dense)
    (hts : ∀ t ∈ ts, isReserved t.toDecoded = false)
    (hnew : ts.map Pointer.Token.toDecoded ∉ o.paths.map Prod.snd)
    (h : c.ConcealsAt draw ts v step)
    (hD : D (c.digest step.disclosure.encoded) step.disclosure.concealed) :
    ∃ decoys o', Marked D (c.digest step.disclosure.encoded) (ts.map Pointer.Token.toDecoded) decoys
      step.disclosure.concealed.value v step.value o o' := by
  induction h generalizing o with
  | member h =>
    obtain ⟨withheld, members, rfl⟩ := exists_object_of_opens ho
    exact marked_concealMember hsorted ho hdense (hts _ List.mem_cons_self) h hD
  | item hi h =>
    obtain ⟨cells, rfl, -⟩ := exists_array_of_opens ho
    rw [List.map_cons, List.map_nil, Pointer.Token.toDecoded_eq_of_index? hi] at hnew ⊢
    exact ⟨[], marked_concealItem hsorted ho hdense hnew h hD⟩
  | inMember hget h ih =>
    obtain ⟨ht, hrest⟩ := List.forall_mem_cons.1 hts
    obtain ⟨withheld, members, rfl⟩ := exists_object_of_opens ho
    obtain ⟨ds, ma, mb, o, as, bs, rfl, hm⟩ := exists_memberAmong ho hget ht
    have hv := (Value.sorted_object_iff.1 hsorted).2 _ (Members.mem_of_get? hget)
    obtain ⟨decoys, o', hmark⟩ := ih hv hm.here (Opening.dense_object_middle.1 hdense).2.1
      hrest (Opening.notMem_paths_of_member hnew) hD
    exact ⟨decoys, _, hmark.member hsorted ht hget hm hdense⟩
  | inItem hi hget h ih =>
    obtain ⟨-, hrest⟩ := List.forall_mem_cons.1 hts
    obtain ⟨cells, rfl, -⟩ := exists_array_of_opens ho
    obtain ⟨ia, ib, ca, cb, mark, o, rfl, rfl, hm⟩ := exists_itemAmong ho hget hdense
    cases mark with
    | some g =>
      rw [Digests.eq_placeholder hm.marked] at h
      exact absurd h (not_concealsAt_placeholder hrest g)
    | none =>
      have hv := Value.sorted_array_iff.1 hsorted _ (List.mem_append_right _ List.mem_cons_self)
      rw [List.map_cons, Pointer.Token.toDecoded_eq_of_index? hi] at hnew ⊢
      rw [← hm.lengthCells] at hnew
      obtain ⟨decoys, o', hmark⟩ := ih hv (hm.here rfl) hm.dense hrest
        (Opening.notMem_paths_of_item hm.denseBefore hnew) hD
      exact ⟨decoys, _, hmark.item hsorted hm⟩

end Concealer

end SelectiveDisclosure
