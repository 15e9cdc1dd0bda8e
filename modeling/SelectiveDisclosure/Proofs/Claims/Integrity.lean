import SelectiveDisclosure.Proofs.Claims.Withholding

/-!
# Integrity of revealed claims

Claims are revealed only with disclosures that the payload refers to, itself or through the values
of other disclosures, each in the way of its kind, and only if no digest stands in two of the places
that the walk comes through.
-/

set_option autoImplicit false

namespace SelectiveDisclosure

open Json Reveal

namespace Reference

def digestsIn (v : Value) : List String :=
  (inValue v).map digest

theorem perm_digestsIn_object {ms : Members} {ds : List String} (hds : digestTexts? ms = some ds)
    (h : Members.Ascending ms) :
    (digestsIn (.object ms)).Perm (ds ++ (own ms).flatMap fun m => digestsIn m.2) := by
  have hperm := (perm_inMembers hds h).map digest
  simp only [List.map_append, List.map_map, List.map_flatMap, Function.comp_def, digest,
    List.map_id'] at hperm
  exact hperm

end Reference

namespace Reveal.Opening

section Opens
variable {D : String → Concealed → Prop} {H : String → Prop}

def digestsAlong (below : String → List String) (es : List (String × List String)) :
    List String :=
  es.flatMap fun e => below e.1

/-- A table of the digests met in what each digest stands for. -/
def Below (D : String → Concealed → Prop) (below : String → List String) : Prop :=
  ∀ g c, D g c → Value.Sorted c.value ∧ below g = Reference.digestsIn c.value

section Along
variable {below : String → List String}

theorem digestsAlong_append (es es' : List (String × List String)) :
    digestsAlong below (es ++ es') = digestsAlong below es ++ digestsAlong below es' :=
  List.flatMap_append

theorem digestsAlong_slotPaths_none (token : String) (o : Opening) :
    digestsAlong below (slotPaths token none o) = digestsAlong below o.paths := by
  simp [digestsAlong, slotPaths, List.flatMap_map, under]

theorem digestsAlong_slotPaths_some (token g : String) (o : Opening) :
    digestsAlong below (slotPaths token (some g) o) = below g ++ digestsAlong below o.paths := by
  simp [digestsAlong, slotPaths, List.flatMap_map, under]

mutual

theorem perm_digestsIn (hb : Below D below) (o : Opening) {v : Value} (h : Opens D H o v)
    (hv : Value.Sorted v) :
    o.digests.Perm (Reference.digestsIn v ++ digestsAlong below o.paths) := by
  cases o with
  | leaf u =>
    obtain ⟨rfl, hs⟩ := h
    cases v <;> first | exact List.Perm.refl _ | exact hs.elim
  | array cells =>
    obtain ⟨items, rfl, hitems⟩ := h
    exact perm_digestsInItems hb cells hitems (Value.sorted_array_iff.1 hv) 0
  | object withheld members =>
    obtain ⟨ms, ds, slots, rfl, htexts, hclear, -, hperm, -, hmembers⟩ := h
    rw [Value.sorted_object_iff] at hv
    have hown : ∀ m ∈ clearOf slots, Value.Sorted m.2 := by
      rw [hclear]
      exact fun m hm => hv.2 m (mem_own_iff.1 hm).1
    have hr := perm_digestsInMembers hb members hmembers hown
    rw [hclear] at hr
    rw [(marksOf_of_opensMembers hmembers).1] at hperm
    apply (hperm.symm.append hr).trans
    rw [← List.append_assoc]
    exact (Reference.perm_digestsIn_object htexts hv.1).symm.append_right _

theorem perm_digestsInItems (hb : Below D below) (cells : List (Cell Opening))
    {items : List Value} (h : OpensItems D H cells items) (hv : ∀ v ∈ items, Value.Sorted v)
    (i : Nat) :
    (cellDigests cells).Perm
      ((Reference.inItems items).map Reference.digest ++
        digestsAlong below (cellPaths i cells)) := by
  cases cells with
  | nil =>
    rw [OpensItems] at h
    subst h
    exact List.Perm.refl _
  | cons cell r =>
    cases cell with
    | clear o =>
      obtain ⟨v, rest, rfl, hplace, ho, hr⟩ := h
      obtain ⟨hv, hrest⟩ := List.forall_mem_cons.1 hv
      rw [Reference.inItems_of_clear hplace, List.map_append, cellPaths_clear,
        digestsAlong_append, digestsAlong_slotPaths_none]
      exact perm_append_append (perm_digestsIn hb o ho hv)
        (perm_digestsInItems hb r hr hrest (i + 1))
    | disclosed g o =>
      obtain ⟨v, rest, rfl, hplace, ⟨u, hu, ho⟩, hr⟩ := h
      obtain ⟨-, hrest⟩ := List.forall_mem_cons.1 hv
      obtain ⟨hu, hg⟩ := hb g _ hu
      have ho : (g :: o.digests).Perm ([g] ++ (below g ++ digestsAlong below o.paths)) := by
        rw [hg]
        exact (perm_digestsIn hb o ho hu).cons g
      rw [Reference.inItems_of_placeholder hplace, cellPaths_disclosed, digestsAlong_append,
        digestsAlong_slotPaths_some]
      exact perm_append_append ho (perm_digestsInItems hb r hr hrest (i + 1))
    | withheld g =>
      obtain ⟨v, rest, rfl, hplace, -, hr⟩ := h
      obtain ⟨-, hrest⟩ := List.forall_mem_cons.1 hv
      rw [Reference.inItems_of_placeholder hplace]
      exact (perm_digestsInItems hb r hr hrest i).cons g

theorem perm_digestsInMembers (hb : Below D below)
    (members : List (String × Option String × Opening))
    {slots : List (String × Option String × Value)} (h : OpensMembers D H members slots)
    (hv : ∀ m ∈ clearOf slots, Value.Sorted m.2) :
    (memberDigests members).Perm
      ((clearOf slots).flatMap (fun m => Reference.digestsIn m.2) ++
        digestsAlong below (markPaths members ++ memberPaths members)) := by
  cases members with
  | nil =>
    rw [OpensMembers] at h
    subst h
    exact List.Perm.refl _
  | cons m r =>
    obtain ⟨k, mark, o⟩ := m
    obtain ⟨v, rest, rfl, hd, ho, hr⟩ := h
    apply List.Perm.trans _ (((perm_paths_cons k mark o r).symm.flatMap_right _).append_left _)
    -- What is met in a clear member counts for the object, in a disclosed one for its path.
    cases mark with
    | none =>
      obtain ⟨hv, hrest⟩ := List.forall_mem_cons.1 hv
      rw [clearOf_cons_none, List.flatMap_cons, ← digestsAlong, digestsAlong_append,
        digestsAlong_slotPaths_none]
      exact perm_append_append (perm_digestsIn hb o ho hv) (perm_digestsInMembers hb r hr hrest)
    | some g =>
      obtain ⟨hu, hg⟩ := hb g _ (hd g rfl)
      have ho : o.digests.Perm ([] ++ (below g ++ digestsAlong below o.paths)) := by
        rw [hg]
        exact perm_digestsIn hb o ho hu
      rw [clearOf_cons_some, ← digestsAlong, digestsAlong_append, digestsAlong_slotPaths_some]
      exact perm_append_append ho (perm_digestsInMembers hb r hr hv)

end

end Along
end Opens

end Reveal.Opening

/-! ## Disclosures and what refers to them -/

def Disclosure.ReferredIn (f : DigestFunction) (algorithm : Option HashAlgorithm) (d : Disclosure)
    (v : Value) : Prop :=
  ∃ a, algorithm = some a ∧ .ofConcealed (d.digest f a) d.concealed ∈ Reference.inValue v

namespace Payload

/-- A chain of references leads from the payload to a disclosure, each inside the value that the
one before it discloses. -/
inductive Reaches (f : DigestFunction) (p : Payload) (ds : List Disclosure) : Disclosure → Prop
  | root {d : Disclosure} (hd : d ∈ ds) (h : d.ReferredIn f p.algorithm (.object p.claims)) :
    Reaches f p ds d
  | step {e d : Disclosure} (he : Reaches f p ds e) (hd : d ∈ ds)
    (h : d.ReferredIn f p.algorithm e.concealed.value) : Reaches f p ds d

def references (p : Payload) (ds : List Disclosure) : List Reference :=
  Reference.inValue (.object p.claims) ++
    ds.flatMap fun d => Reference.inValue d.concealed.value

/-- Each disclosure is reached, and no digest refers twice, let alone in the way of another kind.
These are the digests that the walk has met at its end. -/
structure Accounts (f : DigestFunction) (p : Payload) (ds : List Disclosure) (claims : Members) :
    Prop where
  reached : ∀ d ∈ ds, p.Reaches f ds d
  nodup : ((p.references ds).map Reference.digest).Nodup
  only : ∀ a, p.algorithm = some a → ∀ d ∈ ds, ∀ r ∈ p.references ds,
    r.digest = d.digest f a → r = .ofConcealed (d.digest f a) d.concealed
  met : ∃ t w, table f p.algorithm ds = .ok t ∧ p.walk t ds.length = .ok (claims, w) ∧
    w.met.Perm ((p.references ds).map Reference.digest)

variable {f : DigestFunction} {p : Payload} {ds : List Disclosure} {o : Opening}

theorem Reaches.mem {d : Disclosure} (h : p.Reaches f ds d) : d ∈ ds := by
  cases h <;> assumption

theorem Reaches.mem_references {d : Disclosure} (h : p.Reaches f ds d) {a : HashAlgorithm}
    (ha : p.algorithm = some a) :
    .ofConcealed (d.digest f a) d.concealed ∈ p.references ds := by
  cases h with
  | root hd h =>
    obtain ⟨b, hb, h⟩ := h
    rw [ha] at hb
    cases hb
    exact List.mem_append_left _ h
  | step he hd h =>
    obtain ⟨b, hb, h⟩ := h
    rw [ha] at hb
    cases hb
    exact List.mem_append_right _ (List.mem_flatMap.2 ⟨_, he.mem, h⟩)

theorem exists_below {algorithm : Option HashAlgorithm}
    (hn : (ds.map (digestUnder f algorithm)).Nodup)
    (hds : ∀ d ∈ ds, Value.Sorted d.concealed.value) :
    ∃ below, Opening.Below (tableOf f algorithm ds).Discloses below := by
  refine ⟨fun g => ((tableOf f algorithm ds).find? g).elim [] fun c =>
    Reference.digestsIn c.value, fun g c hc => ?_⟩
  obtain ⟨d, hd, -, rfl⟩ := (discloses_tableOf_iff hn).1 hc
  rw [Table.Discloses] at hc
  exact ⟨hds d hd, by simp [hc]⟩

section Reveals
variable (h : p.Reveals f ds o) {claims : Members} {ps : List Pointer}
  (hclaims : o.value = .object claims) (hr : p.reveal f ds = .ok (claims, ps))
include h hclaims hr

theorem perm_fst_paths :
    (o.paths.map Prod.fst).Perm (ds.map (digestUnder f p.algorithm)) := by
  apply (List.perm_ext_iff_of_nodup h.nodup_fst h.distinct).2
  intro g
  constructor
  · intro hg
    obtain ⟨⟨g, path⟩, he, rfl⟩ := List.mem_map.1 hg
    obtain ⟨d, q, hdq, rfl, -⟩ := (mem_paths_iff h hclaims hr).1 he
    exact List.mem_map.2 ⟨d, (List.of_mem_zip hdq).1, rfl⟩
  · intro hg
    obtain ⟨d, hd, rfl⟩ := List.mem_map.1 hg
    obtain ⟨hlen, -⟩ := map_eq_map_some_iff.1 ((places_of_reveals h hclaims).1 hr)
    obtain ⟨q, hdq⟩ := exists_mem_zip hlen hd
    exact List.mem_map.2 ⟨_, (mem_paths_iff h hclaims hr).2 ⟨d, q, hdq, rfl, rfl⟩, rfl⟩

theorem reaches_of_reveals {d : Disclosure} (hd : d ∈ ds) : p.Reaches f ds d := by
  obtain ⟨a, ha⟩ := Option.isSome_iff_exists.1 (h.algorithm (.inl (List.ne_nil_of_mem hd)))
  have hdigest (e : Disclosure) : digestUnder f p.algorithm e = e.digest f a := by rw [ha]; rfl
  have hdisc {g : String} {c : Concealed} :
      (tableOf f p.algorithm ds).Discloses g c ↔ ∃ e ∈ ds, e.digest f a = g ∧ e.concealed = c := by
    rw [discloses_tableOf_iff h.distinct]
    simp only [hdigest]
  -- Being the reference of a disclosure that is reached is inherited.
  let P (r : Reference) : Prop :=
    ∀ e ∈ ds, .ofConcealed (e.digest f a) e.concealed = r → p.Reaches f ds e
  have hP : Opening.Inherited (tableOf f p.algorithm ds).Discloses P := by
    intro g c hc hreach r hr e he heq
    obtain ⟨e', he', rfl, rfl⟩ := hdisc.1 hc
    exact .step (hreach e' he' rfl) he ⟨a, ha, heq ▸ hr⟩
  have hroot : ∀ r ∈ Reference.inValue (.object p.claims), P r := by
    intro r hr e he heq
    exact .root he ⟨a, ha, heq ▸ hr⟩
  have hpath : d.digest f a ∈ o.paths.map Prod.fst := by
    rw [(perm_fst_paths h hclaims hr).mem_iff, ← hdigest]
    exact List.mem_map.2 ⟨d, hd, rfl⟩
  obtain ⟨e, he, heq⟩ := List.mem_map.1 hpath
  obtain ⟨c, hc, hreach⟩ := Opening.referred_of_mem_paths hP o h.opens hroot e he
  rw [heq] at hc hreach
  have hown : (tableOf f p.algorithm ds).Discloses (d.digest f a) d.concealed :=
    hdisc.2 ⟨d, hd, rfl, rfl⟩
  rw [Table.Discloses] at hc hown
  rw [hc] at hown
  cases hown
  exact hreach d hd rfl

theorem perm_references (hp : Value.Sorted (.object p.claims))
    (hds : ∀ d ∈ ds, Value.Sorted d.concealed.value) :
    o.digests.Perm ((p.references ds).map Reference.digest) := by
  obtain ⟨below, hbelow⟩ := exists_below h.distinct hds
  have hall : (ds.map (digestUnder f p.algorithm)).flatMap below =
      ds.flatMap fun d => Reference.digestsIn d.concealed.value := by
    rw [List.flatMap_map]
    refine List.flatMap_congr fun d hd => ?_
    exact (hbelow _ _ ((discloses_tableOf_iff h.distinct).2 ⟨d, hd, rfl, rfl⟩)).2
  apply (Opening.perm_digestsIn hbelow o h.opens hp).trans
  rw [references, List.map_append, List.map_flatMap]
  apply List.Perm.append_left
  rw [Opening.digestsAlong, ← List.flatMap_map Prod.fst below]
  apply ((perm_fst_paths h hclaims hr).flatMap_right below).trans
  rw [hall]
  exact List.Perm.refl _

end Reveals

/-- Claims are revealed only if every disclosure is reached from the payload by references of its
kind, and no digest refers twice. -/
theorem accounts_of_reveal (f : DigestFunction) (p : Payload) (ds : List Disclosure)
    (claims : Members) (ps : List Pointer) (hp : Value.Sorted (.object p.claims))
    (hds : ∀ d ∈ ds, Value.Sorted d.concealed.value) (h : p.reveal f ds = .ok (claims, ps)) :
    p.Accounts f ds claims := by
  obtain ⟨o, ho, hclaims⟩ := exists_reveals hp hds h
  have hperm := perm_references ho hclaims h hp hds
  have hreached (d : Disclosure) (hd : d ∈ ds) : p.Reaches f ds d :=
    reaches_of_reveals ho hclaims h hd
  have hnodup : ((p.references ds).map Reference.digest).Nodup := hperm.nodup_iff.1 ho.nodup
  refine ⟨hreached, hnodup, ?_, ?_⟩
  · intro a ha d hd r hr heq
    exact List.inj_on_of_nodup_map hnodup hr ((hreached d hd).mem_references ha) (by simp [heq])
  · obtain ⟨w, hw, hadv⟩ := ho.exists_walk hclaims
    refine ⟨_, w, ho.table_eq, hw, ?_⟩
    have hmet : w.met.Perm o.digests := by simpa [Walk.start] using hadv.met
    exact hmet.trans hperm

theorem accounts_of_reveal_nested :
    nested.reveal HashAlgorithm.digest [nestedMember, nestedItem, innerMember] =
      .ok (nestedClaims, nestedPlaces) ∧
    nested.Accounts HashAlgorithm.digest [nestedMember, nestedItem, innerMember] nestedClaims :=
  ⟨reveal_nested, accounts_of_reveal _ nested _ _ nestedPlaces sorted_nested
    sorted_nestedDisclosures reveal_nested⟩

end Payload

end SelectiveDisclosure
