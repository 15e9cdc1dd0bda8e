import Mathlib.Data.List.Nodup
import SelectiveDisclosure.Proofs.Claims.Revealed
import SelectiveDisclosure.Proofs.Claims.Pruning

/-!
# Withheld disclosures

A payload that reveals claims with some disclosures reveals with part of them the same claims
without the values that are withheld, as long as each disclosure that is kept comes with those
around it. Otherwise some disclosure has no place.
-/

set_option autoImplicit false

namespace SelectiveDisclosure

open Json Reveal

/-- Each kept disclosure comes with those whose places lie around its own. -/
def AncestorClosed (placed : List (Disclosure × Pointer)) (kept : List Disclosure) : Prop :=
  ∀ d p, (d, p) ∈ placed → d ∈ kept →
    ∀ e q, (e, q) ∈ placed → q.isAncestorOf p = true → e ∈ kept

/-- The path is that of a disclosure which is not kept. -/
def isWithheld (placed : List (Disclosure × Pointer)) (kept : List Disclosure)
    (path : List String) : Bool :=
  placed.any fun e => e.2.decoded = path && !kept.any fun d => d.encoded = e.1.encoded

namespace Payload
variable {f : DigestFunction} {p : Payload} {ds kept : List Disclosure} {o : Opening}

def keeps (f : DigestFunction) (p : Payload) (kept : List Disclosure) (digest : String) : Bool :=
  kept.any fun d => digestUnder f p.algorithm d = digest

section Kept
variable (h : p.Reveals f ds o) (hsub : kept.Sublist ds)
include h hsub

theorem keeps_iff {d : Disclosure} (hd : d ∈ ds) :
    keeps f p kept (digestUnder f p.algorithm d) = true ↔ d ∈ kept := by
  rw [keeps, List.any_eq_true]
  constructor
  · rintro ⟨d', hd', heq⟩
    rw [← List.inj_on_of_nodup_map h.distinct (hsub.subset hd') hd (of_decide_eq_true heq)]
    exact hd'
  · exact fun hd => ⟨d, hd, decide_eq_true rfl⟩

theorem reveals_prune : p.Reveals f kept (o.prune (keeps f p kept)) := by
  have hdistinct : (kept.map (digestUnder f p.algorithm)).Nodup :=
    h.distinct.sublist (hsub.map _)
  have hD : (tableOf f p.algorithm kept).Discloses = fun g c =>
      keeps f p kept g = true ∧ (tableOf f p.algorithm ds).Discloses g c := by
    funext g c
    rw [discloses_tableOf_iff hdistinct, discloses_tableOf_iff h.distinct]
    refine propext ⟨?_, ?_⟩
    · rintro ⟨d, hd, rfl, rfl⟩
      exact ⟨(keeps_iff h hsub (hsub.subset hd)).2 hd, d, hsub.subset hd, rfl, rfl⟩
    · rintro ⟨hk, d, hd, rfl, rfl⟩
      exact ⟨d, (keeps_iff h hsub hd).1 hk, rfl, rfl⟩
  have hH : (tableOf f p.algorithm kept).Withholds = fun g =>
      (tableOf f p.algorithm ds).Withholds g ∨ keeps f p kept g = false := by
    funext g
    rw [withholds_tableOf_iff, withholds_tableOf_iff]
    refine propext ⟨fun hg => .inr ?_, ?_⟩
    · simpa [keeps] using hg
    · rintro (hg | hg) d hd
      · exact hg d (hsub.subset hd)
      · simp only [keeps, List.any_eq_false, decide_eq_true_eq] at hg
        exact hg d hd
  refine ⟨hdistinct, ?_, Opening.nodup_digests_prune _ h.nodup, ?_⟩
  · rw [hD, hH]
    exact Opening.opens_prune _ o h.opens
  · rintro (hne | hne)
    · refine h.algorithm (.inl fun hnil => hne ?_)
      rw [hnil] at hsub
      exact List.sublist_nil.1 hsub
    · obtain ⟨g, hg⟩ := List.exists_mem_of_ne_nil _ hne
      exact h.algorithm (.inr (List.ne_nil_of_mem (Opening.mem_digests_of_prune _ hg)))

theorem isWithheld_iff {ps : List Pointer} {path : List String} :
    isWithheld (ds.zip ps) kept path = true ↔
      ∃ d q, (d, q) ∈ ds.zip ps ∧ q.decoded = path ∧ d ∉ kept := by
  have hkept {d : Disclosure} (hd : d ∈ ds) :
      (kept.any fun e => e.encoded = d.encoded) = true ↔ d ∈ kept := by
    rw [← keeps_iff h hsub hd, keeps, List.any_eq_true, List.any_eq_true]
    constructor
    · rintro ⟨e, he, heq⟩
      refine ⟨e, he, ?_⟩
      have heq := of_decide_eq_true heq
      cases halg : p.algorithm <;> simp [digestUnder, Disclosure.digest, heq]
    · rintro ⟨e, he, heq⟩
      have heq := of_decide_eq_true heq
      refine ⟨e, he, ?_⟩
      rw [List.inj_on_of_nodup_map h.distinct (hsub.subset he) hd heq]
      exact decide_eq_true rfl
  rw [isWithheld, List.any_eq_true]
  constructor
  · rintro ⟨⟨d, q⟩, hm, hq⟩
    rw [Bool.and_eq_true, Bool.not_eq_true'] at hq
    refine ⟨d, q, hm, of_decide_eq_true hq.1, fun hd => ?_⟩
    have := (hkept (List.of_mem_zip hm).1).2 hd
    simp_all
  · rintro ⟨d, q, hm, rfl, hd⟩
    refine ⟨(d, q), hm, ?_⟩
    rw [Bool.and_eq_true, Bool.not_eq_true']
    refine ⟨decide_eq_true rfl, ?_⟩
    rw [← Bool.not_eq_true, hkept (List.of_mem_zip hm).1]
    exact hd

variable {claims : Members} {ps : List Pointer} (hclaims : o.value = .object claims)
  (hr : p.reveal f ds = .ok (claims, ps))
include hclaims hr

theorem isWithheld_iff_gone {path : List String} :
    isWithheld (ds.zip ps) kept path = true ↔
      Opening.Gone (keeps f p kept) o.paths path := by
  rw [isWithheld_iff h hsub]
  constructor
  · rintro ⟨d, q, hm, rfl, hd⟩
    refine ⟨(_, _), (mem_paths_iff h hclaims hr).2 ⟨d, q, hm, rfl, rfl⟩, rfl, ?_⟩
    rw [← Bool.not_eq_true, keeps_iff h hsub (List.of_mem_zip hm).1]
    exact hd
  · rintro ⟨⟨g, path⟩, hm, rfl, hk⟩
    obtain ⟨d, q, hdq, rfl, rfl⟩ := (mem_paths_iff h hclaims hr).1 hm
    refine ⟨d, q, hdq, rfl, fun hd => ?_⟩
    rw [(keeps_iff h hsub (List.of_mem_zip hdq).1).2 hd] at hk
    cases hk

theorem mem_paths_prune_iff {d : Disclosure} {q : Pointer} (hdq : (d, q) ∈ ds.zip ps)
    (hd : d ∈ kept) :
    digestUnder f p.algorithm d ∈ (o.prune (keeps f p kept)).paths.map Prod.fst ↔
      ∀ e r, (e, r) ∈ ds.zip ps → r.isAncestorOf q = true → e ∈ kept := by
  have hmem : ∀ {g : String} {path : List String}, (g, path) ∈ o.paths ↔
      ∃ d q, (d, q) ∈ ds.zip ps ∧ digestUnder f p.algorithm d = g ∧ q.decoded = path :=
    mem_paths_iff h hclaims hr
  rw [Opening.mem_paths_prune _ _ o h.opens]
  have hpath : (digestUnder f p.algorithm d, q.decoded) ∈ o.paths :=
    hmem.2 ⟨d, q, hdq, rfl, rfl⟩
  constructor
  · rintro ⟨path, hm, hkeep⟩ e r her hanc
    have hsame : path = q.decoded := by
      have h₁ := Members.get?_of_mem_of_nodup h.nodup_fst hm
      have h₂ := Members.get?_of_mem_of_nodup h.nodup_fst hpath
      exact Option.some.inj (h₁.symm.trans h₂)
    rw [← keeps_iff h hsub (List.of_mem_zip her).1]
    apply hkeep (_, r.decoded) (hmem.2 ⟨e, r, her, rfl, rfl⟩)
    rw [hsame]
    exact (Pointer.isAncestorOf_iff.1 hanc).1
  · intro hall
    refine ⟨q.decoded, hpath, ?_⟩
    rintro ⟨g, path⟩ he hpre
    obtain ⟨e, r, her, rfl, rfl⟩ := hmem.1 he
    rw [keeps_iff h hsub (List.of_mem_zip her).1]
    by_cases heq : r.decoded = q.decoded
    · -- Two disclosures of one path are the same.
      have hpair := List.inj_on_of_nodup_map (o.nodup_paths h.opens) he hpath heq
      have hde : e = d := List.inj_on_of_nodup_map h.distinct (List.of_mem_zip her).1
        (List.of_mem_zip hdq).1 (Prod.mk.inj hpair).1
      rw [hde]
      exact hd
    · exact hall e r her (Pointer.isAncestorOf_iff.2 ⟨hpre, heq⟩)

theorem reveal_of_ancestorClosed (hclosed : AncestorClosed (ds.zip ps) kept) :
    ∃ qs, p.reveal f kept =
      .ok (Value.withoutMembers (isWithheld (ds.zip ps) kept) claims, qs) := by
  have hvalue : (o.prune (keeps f p kept)).value =
      .object (Value.withoutMembers (isWithheld (ds.zip ps) kept) claims) := by
    rw [Opening.value_prune o h.opens fun q _ => isWithheld_iff_gone h hsub hclaims hr, hclaims,
      Value.without]
  obtain ⟨hlen, -⟩ := map_eq_map_some_iff.1 ((places_of_reveals h hclaims).1 hr)
  have hplaces : ∀ d ∈ kept, ∃ q, (Members.get? (o.prune (keeps f p kept)).paths
      (digestUnder f p.algorithm d)).map (Pointer.pushAll .root) = some q := by
    intro d hd
    obtain ⟨q, hdq⟩ := exists_mem_zip hlen (hsub.subset hd)
    have hpath := (mem_paths_prune_iff h hsub hclaims hr hdq hd).2 fun e r her hanc =>
      hclosed d q hdq hd e r her hanc
    cases hget : Members.get? (o.prune (keeps f p kept)).paths (digestUnder f p.algorithm d) with
    | none => exact absurd hpath (Members.get?_eq_none_iff.1 hget)
    | some path => exact ⟨_, rfl⟩
  obtain ⟨qs, hqs⟩ := exists_map_some hplaces
  exact ⟨qs, (places_of_reveals (reveals_prune h hsub) hvalue).2 hqs⟩

theorem reveal_of_not_ancestorClosed (hopen : ¬AncestorClosed (ds.zip ps) kept) :
    ∃ text, p.reveal f kept = .error (.unresolvedDisclosure text) := by
  have hvalue : (o.prune (keeps f p kept)).value =
      .object (Value.withoutMembers (isWithheld (ds.zip ps) kept) claims) := by
    rw [Opening.value_prune o h.opens fun q _ => isWithheld_iff_gone h hsub hclaims hr, hclaims,
      Value.without]
  obtain ⟨d, q, hdq, hd, e, r, her, hanc, he⟩ : ∃ d q, (d, q) ∈ ds.zip ps ∧ d ∈ kept ∧
      ∃ e r, (e, r) ∈ ds.zip ps ∧ r.isAncestorOf q = true ∧ e ∉ kept := by
    simpa [AncestorClosed] using hopen
  have hlost : digestUnder f p.algorithm d ∉
      (o.prune (keeps f p kept)).paths.map Prod.fst := by
    rw [mem_paths_prune_iff h hsub hclaims hr hdq hd]
    exact fun hall => he (hall e r her hanc)
  obtain ⟨text, htext⟩ := places_error
    (w := ⟨(o.prune (keeps f p kept)).digests,
      Opening.placesAt .root (o.prune (keeps f p kept)).paths⟩)
    (l := entriesOf (digestUnder f p.algorithm) kept)
    ⟨(digestUnder f p.algorithm d, d), List.mem_map.2 ⟨d, hd, rfl⟩, by
      rw [Members.get?_eq_none_iff]
      simpa [Members.names, Opening.placesAt] using hlost⟩
  exact ⟨text, by rw [reveal_of_reveals (reveals_prune h hsub) hvalue, htext]; rfl⟩

end Kept

/-- Part of the disclosures reveal the claims without what is withheld if they are closed under
ancestors, and have an unresolved one among them otherwise. -/
theorem reveal_kept (f : DigestFunction) (p : Payload) (ds kept : List Disclosure)
    (full : Members) (ps : List Pointer) (hp : Value.Sorted (.object p.claims))
    (hds : ∀ d ∈ ds, Value.Sorted d.concealed.value) (h : p.reveal f ds = .ok (full, ps))
    (hsub : kept.Sublist ds) :
    (AncestorClosed (ds.zip ps) kept → ∃ qs, p.reveal f kept =
        .ok (Value.withoutMembers (isWithheld (ds.zip ps) kept) full, qs)) ∧
      (¬AncestorClosed (ds.zip ps) kept →
        ∃ text, p.reveal f kept = .error (.unresolvedDisclosure text)) := by
  obtain ⟨o, ho, hclaims⟩ := exists_reveals hp hds h
  exact ⟨reveal_of_ancestorClosed ho hsub hclaims h,
    reveal_of_not_ancestorClosed ho hsub hclaims h⟩

/-! ## A member with another one inside, and an item in front of another item -/

def digestValue (d : Disclosure) : Value :=
  .string (d.digest HashAlgorithm.digest .sha256)

def innerMember : Disclosure := .ofParts "s" (.member "n" (.bool false))

def nestedItem : Disclosure := .ofParts "s" (.item .null)

def nestedMember : Disclosure :=
  .ofParts "s" (.member "m" (.object [("_sd", .array [digestValue innerMember])]))

def nested : Payload where
  algorithm := some .sha256
  claims := [("_sd", .array [digestValue nestedMember]),
    ("l", .array [.object [("...", digestValue nestedItem)], .bool true])]

def nestedClaims : Members :=
  [("l", .array [.null, .bool true]), ("m", .object [("n", .bool false)])]

def nestedPlaces : List Pointer := [⟨"/m", by decide⟩, ⟨"/l/0", by decide⟩, ⟨"/m/n", by decide⟩]

theorem sorted_nested : Value.Sorted (.object nested.claims) := by
  have hlt : ("_sd" : String) < "l" := by decide
  refine ⟨List.pairwise_pair.2 hlt, ?_⟩
  simp [nested, digestValue, Value.SortedMembers, Value.SortedItems, Value.Sorted,
    Members.Ascending]

theorem sorted_nestedDisclosures :
    ∀ d ∈ [nestedMember, nestedItem, innerMember], Value.Sorted d.concealed.value := by
  simp [nestedMember, nestedItem, innerMember, digestValue, Disclosure.ofParts, Concealed.value,
    Value.Sorted, Value.SortedMembers, Value.SortedItems, Members.Ascending]

theorem reveal_nested :
    nested.reveal HashAlgorithm.digest [nestedMember, nestedItem, innerMember] =
      .ok (nestedClaims, nestedPlaces) := by
  decide +kernel

theorem reveal_kept_nested :
    nested.reveal HashAlgorithm.digest [nestedMember, nestedItem, innerMember] =
      .ok (nestedClaims, nestedPlaces) ∧
    (∃ qs, nested.reveal HashAlgorithm.digest [nestedMember, innerMember] =
      .ok ([("l", .array [.bool true]), ("m", .object [("n", .bool false)])], qs)) ∧
    ∃ text, nested.reveal HashAlgorithm.digest [nestedItem, innerMember] =
      .error (.unresolvedDisclosure text) := by
  refine ⟨reveal_nested, ?_, ?_⟩
  · have hsub : [nestedMember, innerMember].Sublist [nestedMember, nestedItem, innerMember] :=
      .cons_cons _ (.cons _ (.refl _))
    have hwithout : Value.withoutMembers
        (isWithheld ([nestedMember, nestedItem, innerMember].zip nestedPlaces)
          [nestedMember, innerMember]) nestedClaims =
        [("l", .array [.bool true]), ("m", .object [("n", .bool false)])] := by
      decide +kernel
    rw [← hwithout]
    apply (reveal_kept _ nested _ _ _ nestedPlaces sorted_nested sorted_nestedDisclosures
      reveal_nested hsub).1
    intro d p hm hd e q he hanc
    simp only [nestedPlaces, List.zip_cons_cons, List.zip_nil_right, List.mem_cons,
      Prod.mk.injEq, List.not_mem_nil, or_false] at hm he hd ⊢
    rcases he with ⟨rfl, rfl⟩ | ⟨rfl, rfl⟩ | ⟨rfl, rfl⟩
    · exact .inl rfl
    · rcases hm with ⟨rfl, rfl⟩ | ⟨rfl, rfl⟩ | ⟨rfl, rfl⟩ <;> exact absurd hanc (by decide)
    · exact .inr rfl
  · have hsub : [nestedItem, innerMember].Sublist [nestedMember, nestedItem, innerMember] :=
      .cons _ (.refl _)
    apply (reveal_kept _ nested _ _ _ nestedPlaces sorted_nested sorted_nestedDisclosures
      reveal_nested hsub).2
    intro hclosed
    have hmember := hclosed innerMember ⟨"/m/n", by decide⟩ (by simp [nestedPlaces]) (by simp)
      nestedMember ⟨"/m", by decide⟩ (by simp [nestedPlaces]) (by decide)
    simp [nestedMember, nestedItem, innerMember, Disclosure.ofParts] at hmember

end Payload

end SelectiveDisclosure
