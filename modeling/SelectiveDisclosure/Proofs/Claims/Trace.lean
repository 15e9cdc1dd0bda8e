import SelectiveDisclosure.Proofs.Claims.Walk
import SelectiveDisclosure.Proofs.Json.Value
import SelectiveDisclosure.Proofs.Outcome

/-!
# Walks leave traces

Every walk that comes to its end has gone through a tree to which the value opens. Each step into a
disclosure meets a digest of the table that was not met before, so a walk that may take as many of
them as the table has entries never stops short of a disclosed value.
-/

set_option autoImplicit false

namespace SelectiveDisclosure.Reveal

open Json Opening

/-- How many disclosures a walk has met. -/
def Walk.spent (t : Table) (w : Walk) : Nat :=
  w.met.countP fun g => (t.find? g).isSome

theorem Walk.Advances.spent_le {t : Table} {w w' : Walk} {ds : List String}
    {ps : List (String × Pointer)} (h : w.Advances w' ds ps) : w.spent t ≤ w'.spent t := by
  rw [Walk.spent, Walk.spent, h.met.countP_eq, List.countP_append]
  omega

theorem Walk.Advances.spent_lt {t : Table} {w w' : Walk} {ds : List String}
    {ps : List (String × Pointer)} (h : w.Advances w' ds ps) {g : String} (hg : g ∈ ds)
    (hdisc : (t.find? g).isSome = true) : w.spent t < w'.spent t := by
  have hpos : 0 < ds.countP fun g => (t.find? g).isSome := List.countP_pos_iff.2 ⟨g, hg, hdisc⟩
  rw [Walk.spent, Walk.spent, h.met.countP_eq, List.countP_append]
  omega

theorem Walk.Advances.lt_spent {t : Table} {w w' : Walk} {ds : List String}
    {ps : List (String × Pointer)} (h : w.Advances w' ds ps) {g : String} {c : Concealed}
    (hg : g ∈ ds) (hc : t.find? g = some c) {n : Nat} (hn : n ≤ w.spent t) : n < w'.spent t :=
  Nat.lt_of_le_of_lt hn (h.spent_lt hg (Option.isSome_of_eq_some hc))

theorem Walk.spent_le_length {t : Table} {w : Walk} (h : w.met.Nodup) :
    w.spent t ≤ t.entries.length := by
  have hsub : w.met.filter (fun g => (t.find? g).isSome) ⊆ Members.names t.entries := by
    intro g hg
    by_cases hn : g ∈ Members.names t.entries
    · exact hn
    · have hf := (List.mem_filter.1 hg).2
      simp [Table.find?, Members.get?_eq_none_iff.2 hn] at hf
  have hl := (h.sublist List.filter_sublist).length_le_of_subset hsub
  rwa [← List.countP_eq_length_filter, Members.names, List.length_map] at hl

/-- The outcome of a walk through a value is that of a tree to which the value opens. -/
structure Traced (t : Table) (o : Opening) (place : Pointer) (v : Value) (w : Walk)
    (r : Value × Walk) : Prop where
  opens : Opens t.Discloses t.Withholds o v
  value : r.1 = o.value
  advances : w.Advances r.2 o.digests (placesAt place o.paths)
  nodup : r.2.met.Nodup
  algorithm : ∀ g ∈ o.digests, t.algorithm.isSome = true

/-- Walks that have met at least so many disclosures leave a trace. -/
def LeavesTrace (t : Table) (n : Nat) (visit : Visit) (v : Value) : Prop :=
  ∀ place w r, visit place w = .ok r → w.met.Nodup → n ≤ w.spent t →
    ∃ o, Traced t o place v w r

theorem LeavesTrace.mono {t : Table} {n m : Nat} {visit : Visit} {v : Value}
    (h : LeavesTrace t n visit v) (hnm : n ≤ m) : LeavesTrace t m visit v :=
  fun place w r hr hw hm => h place w r hr hw (Nat.le_trans hnm hm)

/-! ## Digests met -/

theorem Table.met_of_meet {t : Table} {g : String} {w w' : Walk} (h : t.meet g w = .ok w')
    (hw : w.met.Nodup) :
    w.Advances w' [g] [] ∧ w'.met.Nodup ∧ t.algorithm.isSome = true := by
  obtain ⟨ha, hg, rfl⟩ := Table.meet_eq_ok_iff.1 h
  exact ⟨.of_met rfl rfl, List.nodup_cons.2 ⟨hg, hw⟩, ha⟩

/-- What the digests of an object were found to stand for. -/
structure Found (t : Table) (place : Pointer) (ds : List String) (w w' : Walk) : Prop where
  known : ∀ g ∈ ds, t.Withholds g ∨ ∃ name v, t.Discloses g (.member name v)
  advances : w.Advances w' ds (placesAt place (markPaths (foundBy t.find? ds)))
  nodup : w.met.Nodup → w'.met.Nodup
  algorithm : ∀ g ∈ ds, t.algorithm.isSome = true

theorem found_of_findMembers {t : Table} {place : Pointer} {items : List Value}
    {acc found : List (String × Value)} {w w' : Walk}
    (h : t.findMembers place acc items w = .ok (found, w')) :
    ∃ ds, items = ds.map .string ∧ found = acc ++ plain (foundBy t.find? ds) ∧
      Found t place ds w w' := by
  induction items generalizing acc w with
  | nil =>
    rw [Table.findMembers] at h
    cases h
    exact ⟨[], rfl, by simp [foundBy, plain], by simp, .refl _, id, by simp⟩
  | cons v r ih =>
    cases v with
    | string g =>
      rw [Table.findMembers, bind_eq_ok_iff] at h
      obtain ⟨w₁, hmeet, h⟩ := h
      have hmet (hw : w.met.Nodup) := Table.met_of_meet hmeet hw
      obtain ⟨halg, -, rfl⟩ := Table.meet_eq_ok_iff.1 hmeet
      have hadv : w.Advances { w with met := g :: w.met } [g] [] := .of_met rfl rfl
      cases hg : t.find? g with
      | none =>
        simp only [hg] at h
        obtain ⟨ds, rfl, hfound, hf⟩ := ih h
        have hsame : foundBy t.find? (g :: ds) = foundBy t.find? ds := by simp [foundBy, hg]
        refine ⟨g :: ds, rfl, by rw [hsame, hfound], ?_, ?_, fun hw => hf.nodup (hmet hw).2.1, ?_⟩
        · exact List.forall_mem_cons.2 ⟨.inl hg, hf.known⟩
        · rw [hsame]
          exact hadv.trans hf.advances
        · exact List.forall_mem_cons.2 ⟨halg, hf.algorithm⟩
      | some c =>
        cases c with
        | item u => simp [hg] at h
        | member name u =>
          simp only [hg] at h
          by_cases hn : name ∈ Members.names acc
          · simp [hn] at h
          · simp only [hn, if_false] at h
            obtain ⟨ds, rfl, hfound, hf⟩ := ih h
            have hsame : foundBy t.find? (g :: ds) = (name, some g, u) :: foundBy t.find? ds := by
              simp [foundBy, hg]
            refine ⟨g :: ds, rfl, by simp [hsame, hfound, plain], ?_, ?_,
              fun hw => hf.nodup (hmet hw).2.1, ?_⟩
            · exact List.forall_mem_cons.2 ⟨.inr ⟨name, u, hg⟩, hf.known⟩
            · rw [hsame]
              exact (Walk.Advances.place w g _).trans hf.advances
            · exact List.forall_mem_cons.2 ⟨halg, hf.algorithm⟩
    | _ => rw [Table.findMembers] at h; cases h; simp

theorem perm_marksOf_foundBy {t : Table} {ds : List String}
    (h : ∀ g ∈ ds, t.Withholds g ∨ ∃ name v, t.Discloses g (.member name v)) :
    ds.Perm (marksOf (foundBy t.find? ds) ++ ds.filter fun g => (t.find? g).isNone) := by
  induction ds with
  | nil => exact List.Perm.refl _
  | cons g r ih =>
    have hr := ih fun g hg => h g (by simp [hg])
    rcases h g (by simp) with hg | ⟨name, v, hg⟩
    · rw [Table.Withholds] at hg
      have hsame : foundBy t.find? (g :: r) = foundBy t.find? r := by simp [foundBy, hg]
      rw [hsame, List.filter_cons_of_pos (by simp [hg])]
      exact (hr.cons g).trans List.perm_middle.symm
    · rw [Table.Discloses] at hg
      have hsame : foundBy t.find? (g :: r) = (name, some g, v) :: foundBy t.find? r := by
        simp [foundBy, hg]
      rw [hsame, List.filter_cons_of_neg (by simp [hg])]
      exact hr.cons g

theorem discloses_of_mem_foundBy {t : Table} {ds : List String} {s : String × Option String × Value}
    (h : s ∈ foundBy t.find? ds) : ∃ g, s.2.1 = some g ∧ t.Discloses g (.member s.1 s.2.2) := by
  obtain ⟨g, -, hg⟩ := List.mem_filterMap.1 h
  split at hg
  · next name v hfind =>
    cases hg
    exact ⟨g, rfl, hfind⟩
  · cases hg

theorem found_of_disclosedMembers {t : Table} {place : Pointer} {ms : Members}
    {found : List (String × Value)} {w w' : Walk}
    (h : t.disclosedMembers place (Members.get? ms Digests.membersName) w = .ok (found, w')) :
    ∃ ds, digestTexts? ms = some ds ∧ found = plain (foundBy t.find? ds) ∧
      Found t place ds w w' := by
  cases hsd : Members.get? ms Digests.membersName with
  | none =>
    rw [hsd, Table.disclosedMembers] at h
    cases h
    exact ⟨[], digestTexts?_eq_some_iff.2 (.inl ⟨hsd, rfl⟩), rfl, by simp, .refl w, id, by simp⟩
  | some v =>
    cases v with
    | array items =>
      rw [hsd, Table.disclosedMembers] at h
      obtain ⟨ds, rfl, hplain, hf⟩ := found_of_findMembers h
      exact ⟨ds, digestTexts?_eq_some_iff.2 (.inr hsd), hplain, hf⟩
    | _ => rw [hsd] at h; cases h

theorem Found.spent_lt {t : Table} {place : Pointer} {ds : List String} {w w' : Walk}
    (h : Found t place ds w w') {s : String × Option String × Value}
    (hs : s ∈ foundBy t.find? ds) : w.spent t < w'.spent t := by
  obtain ⟨g, hg, hs⟩ := List.mem_filterMap.1 hs
  refine h.advances.spent_lt hg ?_
  split at hs
  · next heq => rw [heq]; rfl
  · cases hs

/-! ## Members and items -/

theorem marks_of_slotsOf {t : Table} {ms : Members} {ds : List String}
    {slots : List (String × Option String × Value)}
    (h : slotsOf ms (foundBy t.find? ds) = .ok slots) :
    (marksOf slots).Perm (marksOf (foundBy t.find? ds)) ∧
      (markPaths slots).Perm (markPaths (foundBy t.find? ds)) := by
  have hp := perm_of_insertMembers h
  have hnone {β : Type} (f : String × Option String × Value → Option β)
      (hf : ∀ k v, f (k, none, v) = none) :
      ((own ms).map fun m => (m.1, (none : Option String), m.2)).filterMap f = [] := by
    rw [List.filterMap_map, List.filterMap_eq_nil_iff]
    exact fun m _ => hf m.1 m.2
  constructor
  all_goals
    apply (hp.filterMap _).trans
    rw [List.filterMap_append, hnone _ fun _ _ => rfl]
    exact List.Perm.refl _

theorem slots_of_slotsOf {t : Table} {ms : Members} {ds : List String}
    {slots : List (String × Option String × Value)} (hms : Members.Ascending ms)
    (h : slotsOf ms (foundBy t.find? ds) = .ok slots) :
    clearOf slots = own ms ∧ Members.Ascending slots := by
  have hown : Members.Ascending (own ms) :=
    Members.ascending_erase (Members.ascending_erase hms)
  have hclear : Members.Ascending ((own ms).map fun m => (m.1, (none : Option String), m.2)) :=
    (ascending_iff_of_names (Members.names_map _ _)).2 hown
  obtain ⟨hasc, hp⟩ := (insertMembers_eq_ok_iff hclear).1 h
  have hfound : clearOf (foundBy t.find? ds) = [] := by
    apply List.filterMap_eq_nil_iff.2
    intro s hs
    obtain ⟨g, hg, -⟩ := discloses_of_mem_foundBy hs
    simp [hg]
  refine ⟨?_, hasc⟩
  apply Members.eq_of_perm (ascending_clearOf hasc) hown
  have hsame := clearOf_append ((own ms).map fun m => (m.1, (none : Option String), m.2))
    (foundBy t.find? ds)
  rw [clearOf_map, hfound, List.append_nil] at hsame
  exact hsame ▸ hp.filterMap _

theorem Found.slot_cases {t : Table} {place : Pointer} {ms : Members} {ds : List String}
    {w w' : Walk} {slots : List (String × Option String × Value)} (hf : Found t place ds w w')
    (h : slotsOf ms (foundBy t.find? ds) = .ok slots) {s : String × Option String × Value}
    (hs : s ∈ slots) :
    s.2.1 = none ∧ (s.1, s.2.2) ∈ ms ∨
      ∃ g, s.2.1 = some g ∧ t.Discloses g (.member s.1 s.2.2) ∧ w.spent t < w'.spent t := by
  rcases List.mem_append.1 ((perm_of_insertMembers h).mem_iff.1 hs) with hs | hs
  · obtain ⟨m, hm, rfl⟩ := List.mem_map.1 hs
    exact .inl ⟨rfl, (mem_own_iff.1 hm).1⟩
  · obtain ⟨g, hg, hd⟩ := discloses_of_mem_foundBy hs
    exact .inr ⟨g, hg, hd, hf.spent_lt hs⟩

theorem opensMembers_of_visitMembers {t : Table} {place : Pointer} {n : Nat}
    {slots : List (String × Option String × Value)} {visits : Option String × Value → Visit}
    (hmark : ∀ s ∈ slots, ∀ g, s.2.1 = some g → t.Discloses g (.member s.1 s.2.2))
    (htrace : ∀ s ∈ slots, LeavesTrace t n (visits s.2) s.2.2) {w w' : Walk}
    {vs : List (String × Value)}
    (h : visitMembers place (slots.map fun s => (s.1, visits s.2)) w = .ok (vs, w'))
    (hw : w.met.Nodup) (hn : n ≤ w.spent t) :
    ∃ members, OpensMembers t.Discloses t.Withholds members slots ∧ vs = memberValues members ∧
      w.Advances w' (memberDigests members) (placesAt place (memberPaths members)) ∧
      w'.met.Nodup ∧ ∀ g ∈ memberDigests members, t.algorithm.isSome = true := by
  induction slots generalizing w vs with
  | nil =>
    rw [List.map_nil, visitMembers] at h
    cases h
    exact ⟨[], by rw [OpensMembers], rfl, .refl _, hw, by simp [memberDigests]⟩
  | cons s r ih =>
    obtain ⟨k, mark, v⟩ := s
    simp only [List.map_cons, visitMembers, bind_eq_ok_iff, Prod.exists] at h
    obtain ⟨u, w₁, hu, us, w₂, hus, h⟩ := h
    cases h
    obtain ⟨o, ho⟩ := htrace (k, mark, v) (by simp) _ _ _ hu hw hn
    have hv : u = o.value := ho.value
    have hadv := ho.advances
    obtain ⟨members, hopens, rfl, hadv', hnodup, halg⟩ := ih (fun s hs => hmark s (by simp [hs]))
      (fun s hs => htrace s (by simp [hs])) hus ho.nodup (Nat.le_trans hn hadv.spent_le)
    refine ⟨(k, mark, o) :: members, ⟨v, r, rfl, hmark (k, mark, v) (by simp), ho.opens, hopens⟩,
      by rw [memberValues, hv], hadv.member hadv', hnodup, ?_⟩
    exact List.forall_mem_append.2 ⟨ho.algorithm, halg⟩

theorem opensItems_of_visitItems {t : Table} {place : Pointer} {n : Nat}
    {below visits : Value → Visit} {items : List Value}
    (hbelow : ∀ g u, t.Discloses g (.item u) → LeavesTrace t (n + 1) (below u) u)
    (htrace : ∀ v ∈ items, LeavesTrace t n (visits v) v) {i : Nat} {w w' : Walk}
    {vs : List Value}
    (h : visitItems t below place i (items.map fun v => (v, visits v)) w = .ok (vs, w'))
    (hw : w.met.Nodup) (hn : n ≤ w.spent t) :
    ∃ cells, OpensItems t.Discloses t.Withholds cells items ∧ vs = cellValues cells ∧
      w.Advances w' (cellDigests cells) (placesAt place (cellPaths i cells)) ∧
      w'.met.Nodup ∧ ∀ g ∈ cellDigests cells, t.algorithm.isSome = true := by
  induction items generalizing i w vs with
  | nil =>
    rw [List.map_nil, visitItems] at h
    cases h
    exact ⟨[], by rw [OpensItems], rfl, .refl _, hw, by simp [cellDigests]⟩
  | cons v r ih =>
    have ih := @ih fun v hv => htrace v (by simp [hv])
    rw [List.map_cons, visitItems] at h
    cases hp : Digests.placeholder? v with
    | none =>
      simp only [hp, bind_eq_ok_iff, Prod.exists] at h
      obtain ⟨u, w₁, hu, us, w₂, hus, h⟩ := h
      cases h
      obtain ⟨o, ho⟩ := htrace _ (by simp) _ _ _ hu hw hn
      have hv : u = o.value := ho.value
      have hadv := ho.advances
      obtain ⟨cells, hopens, rfl, hadv', hnodup, halg⟩ :=
        ih hus ho.nodup (Nat.le_trans hn hadv.spent_le)
      exact ⟨.clear o :: cells, ⟨v, r, rfl, hp, ho.opens, hopens⟩, by rw [cellValues, hv],
        hadv.clear hadv', hnodup, List.forall_mem_append.2 ⟨ho.algorithm, halg⟩⟩
    | some g =>
      simp only [hp, bind_eq_ok_iff] at h
      obtain ⟨w₁, hmeet, h⟩ := h
      obtain ⟨hadv₁, hw₁, halg₁⟩ := Table.met_of_meet hmeet hw
      cases hg : t.find? g with
      | none =>
        simp only [hg] at h
        obtain ⟨cells, hopens, rfl, hadv', hnodup, halg⟩ :=
          ih h hw₁ (Nat.le_trans hn hadv₁.spent_le)
        exact ⟨.withheld g :: cells, ⟨v, r, rfl, hp, hg, hopens⟩, rfl, hadv₁.trans hadv',
          hnodup, List.forall_mem_cons.2 ⟨halg₁, halg⟩⟩
      | some c =>
        cases c with
        | member name u => simp [hg] at h
        | item u =>
          simp only [hg, bind_eq_ok_iff, Prod.exists] at h
          obtain ⟨u', w₂, hu, us, w₃, hus, h⟩ := h
          cases h
          have hplace : w.Advances (w₁.place g (place.pushIndex i)) [g]
              [(g, place.pushIndex i)] := hadv₁.trans (.of_met rfl rfl)
          have hspent : n + 1 ≤ (w₁.place g (place.pushIndex i)).spent t :=
            hplace.lt_spent List.mem_cons_self hg hn
          obtain ⟨o, ho⟩ := hbelow g u hg _ _ _ hu hw₁ hspent
          have hv : u' = o.value := ho.value
          obtain ⟨cells, hopens, rfl, hadv', hnodup, halg⟩ := ih hus ho.nodup
            (Nat.le_trans (Nat.le_of_succ_le hspent) ho.advances.spent_le)
          exact ⟨.disclosed g o :: cells, ⟨v, r, rfl, hp, ⟨u, hg, ho.opens⟩, hopens⟩,
            by rw [cellValues, hv], hplace.disclosed ho.advances hadv', hnodup,
            List.forall_mem_cons.2 ⟨halg₁, List.forall_mem_append.2 ⟨ho.algorithm, halg⟩⟩⟩

/-! ## Values -/

section Step
variable {t : Table} {n : Nat} {below : Value → Visit}

theorem traced_of_visitObject {ms : Members} (hms : Members.Ascending ms)
    (hbelow : ∀ g c, t.Discloses g c → LeavesTrace t (n + 1) (below c.value) c.value)
    (htrace : ∀ m ∈ ms, LeavesTrace t n (visit t below m.2) m.2) {place : Pointer} {w w' : Walk}
    {vs : List (String × Value)}
    (h : visitObject t below (memberVisits t below ms) place w = .ok (vs, w'))
    (hw : w.met.Nodup) (hn : n ≤ w.spent t) :
    ∃ o, Traced t o place (.object ms) w (.object vs, w') := by
  simp only [visitObject, get?_memberVisits, bind_eq_ok_iff, Prod.exists] at h
  obtain ⟨found, w₁, hfound, visits, hvisits, hvs⟩ := h
  obtain ⟨ds, hds, rfl, hf⟩ := found_of_disclosedMembers hfound
  rw [insertMembers_visits t below ms isSome_of_mem_foundBy, map_eq_ok_iff] at hvisits
  obtain ⟨slots, hslots, rfl⟩ := hvisits
  obtain ⟨hclear, hasc⟩ := slots_of_slotsOf hms hslots
  obtain ⟨hmarks, hpaths⟩ := marks_of_slotsOf hslots
  have hdisc : ∀ s ∈ slots, ∀ g, s.2.1 = some g → t.Discloses g (.member s.1 s.2.2) := by
    intro s hs g hg
    rcases hf.slot_cases hslots hs with ⟨hnone, -⟩ | ⟨g', hg', hd, -⟩
    · simp [hnone] at hg
    · rw [hg] at hg'
      cases hg'
      exact hd
  have hslot : ∀ s ∈ slots, LeavesTrace t (w₁.spent t) (visitSlot t below s.2) s.2.2 := by
    intro s hs
    rcases hf.slot_cases hslots hs with ⟨hnone, hm⟩ | ⟨g, hg, hd, hlt⟩
    · rw [visitSlot, hnone]
      exact (htrace _ hm).mono (Nat.le_trans hn hf.advances.spent_le)
    · rw [visitSlot, hg]
      exact (hbelow g _ hd).mono (Nat.lt_of_le_of_lt hn hlt)
  obtain ⟨members, hopens, rfl, hadv, hnodup, halg⟩ :=
    opensMembers_of_visitMembers hdisc hslot hvs (hf.nodup hw) (Nat.le_refl _)
  obtain ⟨hm, hp⟩ := marksOf_of_opensMembers hopens
  have hperm : ds.Perm (marksOf members ++ ds.filter fun g => (t.find? g).isNone) := by
    rw [← hm]
    exact (perm_marksOf_foundBy hf.known).trans (hmarks.symm.append_right _)
  refine ⟨.object (ds.filter fun g => (t.find? g).isNone) members,
    ⟨ms, ds, slots, rfl, hds, hclear, hasc, hm ▸ hperm, fun g hg => ?_, hopens⟩, rfl, ?_,
    hnodup, ?_⟩
  · exact Option.isNone_iff_eq_none.1 (List.mem_filter.1 hg).2
  · rw [digests, paths, placesAt_append]
    refine (hf.advances.congr hperm (List.Perm.map _ ?_)).trans hadv
    rw [← hp]
    exact hpaths.symm
  · intro g hg
    rcases List.mem_append.1 hg with hg | hg
    · exact hf.algorithm g (hperm.mem_iff.2 hg)
    · exact halg g hg

theorem leavesTrace_visit {v : Value} (hv : Value.Sorted v)
    (hbelow : ∀ g c, t.Discloses g c → LeavesTrace t (n + 1) (below c.value) c.value) :
    LeavesTrace t n (visit t below v) v := by
  induction v using Value.induct with
  | scalar v hdepth =>
    intro place w r h hw hn
    have hs := isScalar_of_depth_eq_zero hdepth
    rw [visit_of_isScalar t below hs] at h
    cases h
    exact ⟨.leaf v, ⟨rfl, hs⟩, rfl, .refl w, hw, by simp [digests]⟩
  | array items ih =>
    intro place w r h hw hn
    rw [Value.sorted_array_iff] at hv
    rw [visit, bind_eq_ok_iff] at h
    obtain ⟨⟨vs, w'⟩, h, hr⟩ := h
    cases hr
    rw [itemVisits_eq_map] at h
    obtain ⟨cells, hopens, rfl, hadv, hnodup, halg⟩ := opensItems_of_visitItems
      (fun g u hg => hbelow g _ hg) (fun v hm => ih v hm (hv v hm)) h hw hn
    exact ⟨.array cells, ⟨items, rfl, hopens⟩, rfl, hadv, hnodup, halg⟩
  | object ms ih =>
    intro place w r h hw hn
    rw [Value.sorted_object_iff] at hv
    rw [visit, bind_eq_ok_iff] at h
    obtain ⟨⟨vs, w'⟩, h, hr⟩ := h
    cases hr
    exact traced_of_visitObject hv.1 hbelow (fun m hm => ih m hm (hv.2 m hm)) h hw hn

end Step

/-- Enough steps into disclosures are allowed once what was met makes up for what is missing. -/
theorem leavesTrace_visitBelow {t : Table} (ht : ∀ g c, t.Discloses g c → Value.Sorted c.value)
    (k : Nat) {v : Value} (hv : Value.Sorted v) :
    LeavesTrace t (t.entries.length + 1 - k) (visitBelow t k v) v := by
  induction k generalizing v with
  | zero =>
    intro place w r h hw hn
    have hle := Walk.spent_le_length (t := t) hw
    omega
  | succ k ih =>
    rw [visitBelow]
    apply leavesTrace_visit hv
    intro g c hg
    exact (ih (ht g c hg)).mono (by omega)

end SelectiveDisclosure.Reveal
