import SelectiveDisclosure.Proofs.Claims.Revealed
import SelectiveDisclosure.Proofs.Token.Decoding

/-!
# Revealing what was read again

A walk does not look at numbers. So a payload and disclosures whose numbers were read again reveal
the claims with their numbers read again, at the same places.
-/

set_option autoImplicit false

namespace SelectiveDisclosure

open Json

/-! ## Digests in values -/

namespace Reveal

theorem placeholder?_reread (v : Value) :
    Digests.placeholder? v.reread = Digests.placeholder? v := by
  cases v with
  | object ms =>
    cases ms with
    | nil => rfl
    | cons m r =>
      obtain ⟨k, u⟩ := m
      cases r with
      | nil => cases u <;> rfl
      | cons m' r' => cases u <;> rfl
  | _ => rfl

theorem digestTexts?_rereadMembers {ms : Members} {ds : List String}
    (h : digestTexts? ms = some ds) : digestTexts? (Value.rereadMembers ms) = some ds := by
  rw [digestTexts?_eq_some_iff, Value.get?_rereadMembers]
  rcases digestTexts?_eq_some_iff.1 h with ⟨hnone, rfl⟩ | hsome
  · exact .inl ⟨by rw [hnone, Option.map_none], rfl⟩
  · have hsame : (Value.array (ds.map .string)).reread = .array (ds.map .string) := by
      rw [Value.reread, Value.rereadItems_eq_map, List.map_map]
      rfl
    exact .inr (by rw [hsome, Option.map_some, hsame])

theorem own_rereadMembers (ms : Members) : own (Value.rereadMembers ms) =
    (own ms).map fun m => (m.1, m.2.reread) := by
  rw [Value.rereadMembers_eq_map, own, own, Members.erase, Members.erase, Members.erase,
    Members.erase, List.filter_map, List.filter_map]
  rfl

/-! ## Slots -/

section Slots
variable {α β : Type} (f : α → β)

def mapSlots (slots : List (String × Option String × α)) : List (String × Option String × β) :=
  slots.map fun s => (s.1, s.2.1, f s.2.2)

theorem marksOf_mapSlots (slots : List (String × Option String × α)) :
    marksOf (mapSlots f slots) = marksOf slots := by
  rw [marksOf, mapSlots, List.filterMap_map]
  rfl

theorem markPaths_mapSlots (slots : List (String × Option String × α)) :
    markPaths (mapSlots f slots) = markPaths slots := by
  rw [markPaths, mapSlots, List.filterMap_map]
  rfl

theorem clearOf_mapSlots (slots : List (String × Option String × α)) :
    clearOf (mapSlots f slots) = (clearOf slots).map fun m => (m.1, f m.2) := by
  induction slots with
  | nil => rfl
  | cons s r ih =>
    obtain ⟨k, mark, a⟩ := s
    cases mark with
    | none => exact congrArg (List.cons (k, f a)) ih
    | some g => exact ih

theorem ascending_mapSlots {slots : List (String × Option String × α)}
    (h : Members.Ascending slots) : Members.Ascending (mapSlots f slots) :=
  List.pairwise_map.2 h

end Slots

/-! ## Trees read again -/

namespace Opening

mutual

def reread : Opening → Opening
  | .leaf v => .leaf v.reread
  | .array cells => .array (rereadCells cells)
  | .object withheld members => .object withheld (rereadMembers members)

def rereadCells : List (Cell Opening) → List (Cell Opening)
  | [] => []
  | .clear o :: r => .clear (reread o) :: rereadCells r
  | .disclosed g o :: r => .disclosed g (reread o) :: rereadCells r
  | .withheld g :: r => .withheld g :: rereadCells r

def rereadMembers :
    List (String × Option String × Opening) → List (String × Option String × Opening)
  | [] => []
  | (k, mark, o) :: r => (k, mark, reread o) :: rereadMembers r

end

theorem rereadMembers_eq_mapSlots (members : List (String × Option String × Opening)) :
    rereadMembers members = mapSlots reread members := by
  induction members with
  | nil => rfl
  | cons m r ih =>
    rw [rereadMembers, ih]
    rfl

section Opens
variable {D D' : String → Concealed → Prop} {H : String → Prop}

mutual

theorem opens_reread (hD : ∀ g c, D g c → D' g c.reread) (o : Opening) {v : Value}
    (h : Opens D H o v) : Opens D' H o.reread v.reread := by
  cases o with
  | leaf u =>
    obtain ⟨rfl, hv⟩ := h
    refine ⟨rfl, ?_⟩
    cases v <;> trivial
  | array cells =>
    obtain ⟨items, rfl, hitems⟩ := h
    exact ⟨_, rfl, opensItems_reread hD cells hitems⟩
  | object withheld members =>
    obtain ⟨ms, ds, slots, rfl, htexts, hclear, hasc, hperm, hwith, hmembers⟩ := h
    refine ⟨_, ds, mapSlots Value.reread slots, rfl, digestTexts?_rereadMembers htexts, ?_,
      ascending_mapSlots _ hasc, ?_, hwith, opensMembers_reread hD members hmembers⟩
    · rw [clearOf_mapSlots, hclear, own_rereadMembers]
    · rw [marksOf_mapSlots]
      exact hperm

theorem opensItems_reread (hD : ∀ g c, D g c → D' g c.reread) (cells : List (Cell Opening))
    {items : List Value} (h : OpensItems D H cells items) :
    OpensItems D' H (rereadCells cells) (Value.rereadItems items) := by
  cases cells with
  | nil =>
    rw [OpensItems] at h
    subst h
    rfl
  | cons cell r =>
    cases cell with
    | clear o =>
      obtain ⟨v, rest, rfl, hplace, ho, hr⟩ := h
      exact ⟨_, _, rfl, (placeholder?_reread v).trans hplace, opens_reread hD o ho,
        opensItems_reread hD r hr⟩
    | disclosed g o =>
      obtain ⟨v, rest, rfl, hplace, ⟨u, hu, ho⟩, hr⟩ := h
      exact ⟨_, _, rfl, (placeholder?_reread v).trans hplace,
        ⟨u.reread, hD g _ hu, opens_reread hD o ho⟩, opensItems_reread hD r hr⟩
    | withheld g =>
      obtain ⟨v, rest, rfl, hplace, hg, hr⟩ := h
      exact ⟨_, _, rfl, (placeholder?_reread v).trans hplace, hg, opensItems_reread hD r hr⟩

theorem opensMembers_reread (hD : ∀ g c, D g c → D' g c.reread)
    (members : List (String × Option String × Opening))
    {slots : List (String × Option String × Value)} (h : OpensMembers D H members slots) :
    OpensMembers D' H (rereadMembers members) (mapSlots Value.reread slots) := by
  cases members with
  | nil =>
    rw [OpensMembers] at h
    subst h
    rfl
  | cons m r =>
    obtain ⟨k, mark, o⟩ := m
    obtain ⟨v, rest, rfl, hd, ho, hr⟩ := h
    exact ⟨_, _, rfl, fun g hg => hD g _ (hd g hg), opens_reread hD o ho,
      opensMembers_reread hD r hr⟩

end

end Opens

mutual

theorem value_reread (o : Opening) : o.reread.value = o.value.reread := by
  cases o with
  | leaf v => rfl
  | array cells => exact congrArg Value.array (cellValues_reread cells)
  | object withheld members => exact congrArg Value.object (memberValues_reread members)

theorem cellValues_reread (cells : List (Cell Opening)) :
    cellValues (rereadCells cells) = Value.rereadItems (cellValues cells) := by
  cases cells with
  | nil => rfl
  | cons cell r =>
    cases cell with
    | clear o =>
      rw [rereadCells, cellValues, cellValues, Value.rereadItems, value_reread o,
        cellValues_reread r]
    | disclosed g o =>
      rw [rereadCells, cellValues, cellValues, Value.rereadItems, value_reread o,
        cellValues_reread r]
    | withheld g => exact cellValues_reread r

theorem memberValues_reread (members : List (String × Option String × Opening)) :
    memberValues (rereadMembers members) = Value.rereadMembers (memberValues members) := by
  cases members with
  | nil => rfl
  | cons m r =>
    obtain ⟨k, mark, o⟩ := m
    rw [rereadMembers, memberValues, memberValues, Value.rereadMembers, value_reread o,
      memberValues_reread r]

end

mutual

theorem digests_reread (o : Opening) : o.reread.digests = o.digests := by
  cases o with
  | leaf v => rfl
  | array cells => exact cellDigests_reread cells
  | object withheld members =>
    rw [reread, digests, digests, memberDigests_reread members, rereadMembers_eq_mapSlots,
      marksOf_mapSlots]

theorem cellDigests_reread (cells : List (Cell Opening)) :
    cellDigests (rereadCells cells) = cellDigests cells := by
  cases cells with
  | nil => rfl
  | cons cell r =>
    cases cell with
    | clear o =>
      rw [rereadCells, cellDigests, cellDigests, digests_reread o, cellDigests_reread r]
    | disclosed g o =>
      rw [rereadCells, cellDigests, cellDigests, digests_reread o, cellDigests_reread r]
    | withheld g => exact congrArg (List.cons g) (cellDigests_reread r)

theorem memberDigests_reread (members : List (String × Option String × Opening)) :
    memberDigests (rereadMembers members) = memberDigests members := by
  cases members with
  | nil => rfl
  | cons m r =>
    obtain ⟨k, mark, o⟩ := m
    rw [rereadMembers, memberDigests, memberDigests, digests_reread o, memberDigests_reread r]

end

mutual

theorem paths_reread (o : Opening) : o.reread.paths = o.paths := by
  cases o with
  | leaf v => rfl
  | array cells => exact cellPaths_reread 0 cells
  | object withheld members =>
    rw [reread, paths, paths, memberPaths_reread members, rereadMembers_eq_mapSlots,
      markPaths_mapSlots]

theorem cellPaths_reread (i : Nat) (cells : List (Cell Opening)) :
    cellPaths i (rereadCells cells) = cellPaths i cells := by
  cases cells with
  | nil => rfl
  | cons cell r =>
    cases cell with
    | clear o =>
      rw [rereadCells, cellPaths, cellPaths, paths_reread o, cellPaths_reread (i + 1) r]
    | disclosed g o =>
      rw [rereadCells, cellPaths, cellPaths, paths_reread o, cellPaths_reread (i + 1) r]
    | withheld g => exact cellPaths_reread i r

theorem memberPaths_reread (members : List (String × Option String × Opening)) :
    memberPaths (rereadMembers members) = memberPaths members := by
  cases members with
  | nil => rfl
  | cons m r =>
    obtain ⟨k, mark, o⟩ := m
    rw [rereadMembers, memberPaths, memberPaths, paths_reread o, memberPaths_reread r]

end

end Opening

end Reveal

open Reveal

/-! ## Payloads read again -/

namespace Payload
variable {f : DigestFunction} {p : Payload} {ds : List Disclosure}

theorem digestUnder_reread (f : DigestFunction) (algorithm : Option HashAlgorithm)
    (d : Disclosure) : digestUnder f algorithm d.reread = digestUnder f algorithm d := by
  cases algorithm <;> rfl

theorem map_digestUnder_reread (f : DigestFunction) (algorithm : Option HashAlgorithm)
    (ds : List Disclosure) : (ds.map Disclosure.reread).map (digestUnder f algorithm) =
      ds.map (digestUnder f algorithm) := by
  rw [List.map_map]
  exact List.map_congr_left fun d _ => digestUnder_reread f algorithm d

theorem Reveals.reread {o : Opening} (h : p.Reveals f ds o) :
    p.reread.Reveals f (ds.map Disclosure.reread) o.reread := by
  have hdistinct : ((ds.map Disclosure.reread).map (digestUnder f p.algorithm)).Nodup := by
    rw [map_digestUnder_reread]
    exact h.distinct
  have hwith : (tableOf f p.algorithm (ds.map Disclosure.reread)).Withholds =
      (tableOf f p.algorithm ds).Withholds := by
    funext g
    rw [eq_iff_iff, withholds_tableOf_iff, withholds_tableOf_iff, List.forall_mem_map]
    simp only [digestUnder_reread]
  refine ⟨hdistinct, ?_, ?_, ?_⟩
  · show Opens (tableOf f p.algorithm (ds.map Disclosure.reread)).Discloses
      (tableOf f p.algorithm (ds.map Disclosure.reread)).Withholds o.reread
      (Value.object p.claims).reread
    rw [hwith]
    refine Opening.opens_reread (fun g c hc => ?_) o h.opens
    obtain ⟨d, hd, hg, rfl⟩ := (discloses_tableOf_iff h.distinct).1 hc
    refine (discloses_tableOf_iff hdistinct).2 ⟨d.reread, List.mem_map_of_mem hd, ?_, rfl⟩
    rw [digestUnder_reread, hg]
  · rw [o.digests_reread]
    exact h.nodup
  · rw [o.digests_reread, Ne, List.map_eq_nil_iff]
    exact h.algorithm

theorem reveal_reread (hp : Value.Sorted (.object p.claims))
    (hds : ∀ d ∈ ds, Value.Sorted d.concealed.value) {claims : Members} {ps : List Pointer}
    (h : p.reveal f ds = .ok (claims, ps)) :
    p.reread.reveal f (ds.map Disclosure.reread) = .ok (Value.rereadMembers claims, ps) := by
  obtain ⟨o, ho, hclaims⟩ := exists_reveals hp hds h
  have hvalue : o.reread.value = .object (Value.rereadMembers claims) := by
    rw [o.value_reread, hclaims, Value.reread]
  rw [places_of_reveals ho hclaims] at h
  rw [places_of_reveals ho.reread hvalue, o.paths_reread, List.map_map, ← h]
  exact List.map_congr_left fun d _ => by
    rw [Function.comp_apply, show p.reread.algorithm = p.algorithm from rfl, digestUnder_reread]

end Payload

end SelectiveDisclosure
