import Mathlib.Logic.Relation
import SelectiveDisclosure.Proofs.Claims.Course
import SelectiveDisclosure.Proofs.Claims.Placement

/-!
# Cycles of disclosures

The digests met inside a disclosed value are met after its own, so a disclosure that is found in the
claims leads to others but never back to itself. Revealing ends on a cycle all the same: the walk
meets a digest of it again, or never comes to it and leaves its disclosures without places.
-/

set_option autoImplicit false

namespace SelectiveDisclosure

open Json Reveal

/-- Going through the value, a walk meets the digest of the disclosure. -/
def Disclosure.NamedIn (f : DigestFunction) (algorithm : Option HashAlgorithm) (d : Disclosure)
    (v : Value) : Prop :=
  ∃ a, algorithm = some a ∧ d.digest f a ∈ Reference.digestsIn v

namespace Payload

/-- Two presented disclosures, the second of which is named in the value of the first. -/
def Links (f : DigestFunction) (p : Payload) (ds : List Disclosure) (d e : Disclosure) : Prop :=
  d ∈ ds ∧ e ∈ ds ∧ e.NamedIn f p.algorithm d.concealed.value

def OnCycle (f : DigestFunction) (p : Payload) (ds : List Disclosure) (d : Disclosure) : Prop :=
  Relation.TransGen (p.Links f ds) d d

def LeadsTo (f : DigestFunction) (p : Payload) (ds : List Disclosure) (d : Disclosure) : Prop :=
  ∃ e ∈ ds, e.NamedIn f p.algorithm (.object p.claims) ∧ Relation.ReflTransGen (p.Links f ds) e d

def OpensTo (f : DigestFunction) (p : Payload) (ds : List Disclosure) (u : Opening) (v : Value) :
    Prop :=
  Opens (tableOf f p.algorithm ds).Discloses (tableOf f p.algorithm ds).Withholds u v

variable {f : DigestFunction} {p : Payload} {ds : List Disclosure} {o u : Opening}
  {d e : Disclosure}

theorem OnCycle.mem (hd : p.OnCycle f ds d) : d ∈ ds := by
  obtain ⟨_, ⟨hin, -, -⟩, -⟩ := Relation.TransGen.head'_iff.1 hd
  exact hin

theorem OnCycle.exists_algorithm (hd : p.OnCycle f ds d) : ∃ a, p.algorithm = some a := by
  obtain ⟨_, ⟨-, -, a, ha, -⟩, -⟩ := Relation.TransGen.head'_iff.1 hd
  exact ⟨a, ha⟩

/-! ## Cycles and openings -/

section Reveals
variable (h : p.Reveals f ds o)
include h

theorem exists_opensTo_of_mem_fst_paths {v : Value} (hu : p.OpensTo f ds u v) (hd : d ∈ ds)
    (hpath : digestUnder f p.algorithm d ∈ u.paths.map Prod.fst) :
    ∃ u', p.OpensTo f ds u' d.concealed.value ∧
      (digestUnder f p.algorithm d :: u'.digests).Sublist u.digests := by
  obtain ⟨⟨g, path⟩, hmem, heq⟩ := List.mem_map.1 hpath
  obtain ⟨c, u', hpart⟩ := u.hasPart_of_mem_paths hu _ hmem
  obtain ⟨d', hd', hdg, rfl⟩ := (discloses_tableOf_iff h.distinct).1 hpart.stands
  obtain rfl := List.inj_on_of_nodup_map h.distinct hd' hd (hdg.trans heq)
  have hmet := hpart.met
  rw [show g = _ from heq] at hmet
  exact ⟨u', hpart.opens, hmet⟩

variable (hds : ∀ d ∈ ds, Value.Sorted d.concealed.value)
include hds

theorem mem_fst_paths_of_namedIn {v : Value} (hu : p.OpensTo f ds u v) (hv : Value.Sorted v)
    (hd : d ∈ ds) (hname : d.NamedIn f p.algorithm v) :
    digestUnder f p.algorithm d ∈ u.paths.map Prod.fst := by
  obtain ⟨below, hbelow⟩ := exists_below h.distinct hds
  obtain ⟨a, ha, hname⟩ := hname
  have hdigest : digestUnder f p.algorithm d = d.digest f a := by rw [ha]; rfl
  apply Opening.mem_fst_paths hu
  · rw [hdigest, (Opening.perm_digestsIn hbelow u hu hv).mem_iff]
    exact List.mem_append_left _ hname
  · exact fun hnot => withholds_tableOf_iff.1 hnot d hd rfl

theorem exists_opensTo_of_links (hlink : p.Links f ds d e)
    (hu : p.OpensTo f ds u d.concealed.value) :
    ∃ u', p.OpensTo f ds u' e.concealed.value ∧
      (digestUnder f p.algorithm e :: u'.digests).Sublist u.digests := by
  obtain ⟨hd, he, hname⟩ := hlink
  exact exists_opensTo_of_mem_fst_paths h hu he
    (mem_fst_paths_of_namedIn h hds hu (hds d hd) he hname)

theorem mem_digests_of_transGen (hlinks : Relation.TransGen (p.Links f ds) d e)
    (hu : p.OpensTo f ds u d.concealed.value) : digestUnder f p.algorithm e ∈ u.digests := by
  induction hlinks using Relation.TransGen.head_induction_on generalizing u with
  | single hlink =>
    obtain ⟨u', -, hmet⟩ := exists_opensTo_of_links h hds hlink hu
    exact hmet.subset List.mem_cons_self
  | head hlink _ ih =>
    obtain ⟨u', hu', hmet⟩ := exists_opensTo_of_links h hds hlink hu
    exact hmet.subset (List.mem_cons_of_mem _ (ih hu'))

theorem notMem_digests_of_onCycle (hd : p.OnCycle f ds d) :
    digestUnder f p.algorithm d ∉ o.digests := by
  intro hmem
  have hpath := Opening.mem_fst_paths h.opens hmem
    fun hnot => withholds_tableOf_iff.1 hnot d hd.mem rfl
  obtain ⟨u, hu, hmet⟩ := exists_opensTo_of_mem_fst_paths h h.opens hd.mem hpath
  -- Its digest is met before its value is opened, and once more in there.
  exact (List.nodup_cons.1 (h.nodup.sublist hmet)).1 (mem_digests_of_transGen h hds hd hu)

theorem mem_digests_of_leadsTo (hp : Value.Sorted (.object p.claims)) (hd : p.LeadsTo f ds d) :
    digestUnder f p.algorithm d ∈ o.digests := by
  obtain ⟨e, he, hname, hlinks⟩ := hd
  obtain ⟨u, hu, hmet⟩ := exists_opensTo_of_mem_fst_paths h h.opens he
    (mem_fst_paths_of_namedIn h hds h.opens hp he hname)
  rcases Relation.reflTransGen_iff_eq_or_transGen.1 hlinks with rfl | hlinks
  · exact hmet.subset List.mem_cons_self
  · exact hmet.subset (List.mem_cons_of_mem _ (mem_digests_of_transGen h hds hlinks hu))

end Reveals

end Payload

/-! ## Nothing but digests that are met again -/

namespace Reveal

/-- Nothing stands in the way of a walk through a value but a digest that was met before: digests
are texts, each stands where its disclosure belongs, and no name comes twice. -/
def Table.Tidy (t : Table) : Value → Prop
  | .object ms => ∃ texts, digestTexts? ms = some texts ∧
    (∀ g ∈ texts, ∀ v, t.find? g ≠ some (.item v)) ∧
    (Members.names (own ms) ++ Members.names (foundBy t.find? texts)).Nodup
  | .array items => ∀ v ∈ items, ∀ g, Digests.placeholder? v = some g →
    ∀ name u, t.find? g ≠ some (.member name u)
  | _ => True

def FailsOnRepeats (visit : Visit) : Prop :=
  ∀ place w e, visit place w = .error e → ∃ g, e = .duplicateDigest g

section Tidy
variable {t : Table} {place : Pointer} {w : Walk} {e : RevealError}

theorem insertMembers_ne_error {α : Type} {as bs : List (String × α)}
    (hn : (Members.names as ++ Members.names bs).Nodup) : insertMembers as bs ≠ .error e := by
  induction bs generalizing as with
  | nil => exact nofun
  | cons m r ih =>
    obtain ⟨name, a⟩ := m
    have hnew : name ∉ Members.names as := fun hm =>
      (List.nodup_append.1 hn).2.2 name hm name List.mem_cons_self rfl
    rw [insertMembers, if_neg hnew]
    apply ih
    have hperm : (Members.names (Members.insert name a as) ++ Members.names r).Perm
        (Members.names as ++ name :: Members.names r) :=
      (((Members.perm_insert hnew).map Prod.fst).append_right _).trans List.perm_middle.symm
    exact hperm.nodup_iff.2 hn

theorem repeated_of_visitMembers {members : List (String × Visit)}
    (hmembers : ∀ m ∈ members, FailsOnRepeats m.2) (h : visitMembers place members w = .error e) :
    ∃ g, e = .duplicateDigest g := by
  induction members generalizing w with
  | nil => cases h
  | cons m r ih =>
    obtain ⟨name, visit⟩ := m
    obtain ⟨hvisit, hr⟩ := List.forall_mem_cons.1 hmembers
    rw [visitMembers, bind_eq_error_iff] at h
    rcases h with h | ⟨⟨v, w₁⟩, -, h⟩
    · exact hvisit _ _ _ h
    · rcases bind_eq_error_iff.1 h with h | ⟨_, -, h⟩
      · exact ih hr h
      · cases h

variable (halg : t.algorithm.isSome = true)
include halg

theorem repeated_of_meet {g : String} (h : t.meet g w = .error e) :
    e = .duplicateDigest g := by
  rw [Table.meet, Option.isNone_eq_false_iff.2 halg] at h
  split at h
  · contradiction
  · split at h
    · cases h
      rfl
    · cases h

theorem repeated_of_findMembers {texts : List String} {acc : List (String × Value)}
    (hkind : ∀ g ∈ texts, ∀ v, t.find? g ≠ some (.item v))
    (hn : (Members.names acc ++ Members.names (foundBy t.find? texts)).Nodup)
    (h : t.findMembers place acc (texts.map .string) w = .error e) :
    ∃ g, e = .duplicateDigest g := by
  induction texts generalizing acc w with
  | nil => cases h
  | cons g r ih =>
    obtain ⟨hg, hr⟩ := List.forall_mem_cons.1 hkind
    rw [List.map_cons, Table.findMembers, bind_eq_error_iff] at h
    rcases h with h | ⟨w₁, -, h⟩
    · exact ⟨g, repeated_of_meet halg h⟩
    · cases hfind : t.find? g with
      | none =>
        simp only [hfind] at h
        rw [show foundBy t.find? (g :: r) = foundBy t.find? r by simp [foundBy, hfind]] at hn
        exact ih hr hn h
      | some c =>
        cases c with
        | item v => exact absurd hfind (hg v)
        | member name v =>
          have hfound : foundBy t.find? (g :: r) = (name, some g, v) :: foundBy t.find? r := by
            simp [foundBy, hfind]
          rw [hfound] at hn
          have hnew : name ∉ Members.names acc := fun hm =>
            (List.nodup_append.1 hn).2.2 name hm name List.mem_cons_self rfl
          simp only [hfind, hnew, if_false] at h
          apply ih hr _ h
          simpa [Members.names] using hn

variable {below : Value → Visit}

theorem repeated_of_visitItems {visits : Value → Visit} {items : List Value}
    (hitems : ∀ v ∈ items, FailsOnRepeats (visits v))
    (hbelow : ∀ g c, t.Discloses g c → FailsOnRepeats (below c.value))
    (htidy : t.Tidy (.array items)) {i : Nat}
    (h : visitItems t below place i (items.map fun v => (v, visits v)) w = .error e) :
    ∃ g, e = .duplicateDigest g := by
  induction items generalizing i w with
  | nil => cases h
  | cons v r ih =>
    obtain ⟨hv, hitems⟩ := List.forall_mem_cons.1 hitems
    obtain ⟨hkind, htidy⟩ := List.forall_mem_cons.1 htidy
    rw [List.map_cons, visitItems] at h
    cases hp : Digests.placeholder? v with
    | none =>
      simp only [hp, bind_eq_error_iff, Prod.exists] at h
      rcases h with h | ⟨_, _, -, h | ⟨_, _, -, h⟩⟩
      · exact hv _ _ _ h
      · exact ih hitems htidy h
      · cases h
    | some g =>
      simp only [hp, bind_eq_error_iff] at h
      rcases h with h | ⟨w₁, -, h⟩
      · exact ⟨g, repeated_of_meet halg h⟩
      · cases hfind : t.find? g with
        | none =>
          simp only [hfind] at h
          exact ih hitems htidy h
        | some c =>
          cases c with
          | member name u => exact absurd hfind (hkind g hp name u)
          | item u =>
            simp only [hfind, bind_eq_error_iff, Prod.exists] at h
            rcases h with h | ⟨_, _, -, h | ⟨_, _, -, h⟩⟩
            · exact hbelow g _ hfind _ _ _ h
            · exact ih hitems htidy h
            · cases h

theorem repeated_of_visitObject {ms : Members}
    (hmembers : ∀ m ∈ ms, FailsOnRepeats (visit t below m.2))
    (hbelow : ∀ g c, t.Discloses g c → FailsOnRepeats (below c.value))
    (htidy : t.Tidy (.object ms))
    (h : visitObject t below (memberVisits t below ms) place w = .error e) :
    ∃ g, e = .duplicateDigest g := by
  obtain ⟨texts, htexts, hkind, hn⟩ := htidy
  simp only [visitObject, get?_memberVisits, bind_eq_error_iff, Prod.exists] at h
  rcases h with h | ⟨found, w₁, hfound, h | ⟨all, hall, h⟩⟩
  · rw [disclosedMembers_of_digestTexts? t place htexts] at h
    have hfound : (Members.names ([] : Members) ++ Members.names (foundBy t.find? texts)).Nodup :=
      (List.nodup_append.1 hn).2.1
    exact repeated_of_findMembers halg hkind hfound h
  all_goals
    obtain ⟨ds, hds, rfl, -⟩ := found_of_disclosedMembers hfound
    rw [htexts] at hds
    cases hds
  · refine absurd h (insertMembers_ne_error ?_)
    rw [ownMembers_memberVisits]
    simpa [Members.names, plain, Function.comp_def] using hn
  · refine repeated_of_visitMembers (fun m hm => ?_) h
    rcases List.mem_append.1 ((perm_of_insertMembers hall).mem_iff.1 hm) with hm | hm
    · rw [ownMembers_memberVisits] at hm
      obtain ⟨m', hm', rfl⟩ := List.mem_map.1 hm
      exact hmembers m' (mem_own_iff.1 hm').1
    · obtain ⟨m', hm', rfl⟩ := List.mem_map.1 hm
      obtain ⟨s, hs, rfl⟩ := List.mem_map.1 hm'
      obtain ⟨g, -, hd⟩ := discloses_of_mem_foundBy hs
      exact hbelow g _ hd

theorem failsOnRepeats_visit (hbelow : ∀ g c, t.Discloses g c → FailsOnRepeats (below c.value))
    {v : Value} (htidy : v.Everywhere t.Tidy) : FailsOnRepeats (visit t below v) := by
  induction v using Value.induct with
  | scalar v hdepth =>
    intro place w e h
    rw [visit_of_isScalar t below (isScalar_of_depth_eq_zero hdepth)] at h
    cases h
  | array items ih =>
    intro place w e h
    rw [Value.everywhere_array_iff] at htidy
    rw [visit, itemVisits_eq_map, bind_eq_error_iff] at h
    rcases h with h | ⟨_, -, h⟩
    · exact repeated_of_visitItems halg (fun v hv => ih v hv (htidy.2 v hv)) hbelow htidy.1 h
    · cases h
  | object ms ih =>
    intro place w e h
    rw [Value.everywhere_object_iff] at htidy
    rw [visit, bind_eq_error_iff] at h
    rcases h with h | ⟨_, -, h⟩
    · exact repeated_of_visitObject halg (fun m hm => ih m hm (htidy.2 m hm)) hbelow htidy.1 h
    · cases h

theorem failsOnRepeats_visitBelow
    (hdisc : ∀ g c, t.Discloses g c → c.value.Everywhere t.Tidy) (k : Nat) {v : Value}
    (htidy : v.Everywhere t.Tidy) : FailsOnRepeats (visitBelow t k v) := by
  induction k generalizing v with
  | zero => exact fun _ _ _ h => nomatch h
  | succ k ih => exact failsOnRepeats_visit halg (fun g c hg => ih (hdisc g c hg)) htidy

end Tidy

end Reveal

/-! ## Revealing with cycles -/

namespace Payload

/-- Whatever is wrong with the payload or the values of its disclosures, it is a digest that comes
again. -/
def Tidy (f : DigestFunction) (p : Payload) (ds : List Disclosure) : Prop :=
  Value.Everywhere (tableOf f p.algorithm ds).Tidy (.object p.claims) ∧
    ∀ d ∈ ds, d.concealed.value.Everywhere (tableOf f p.algorithm ds).Tidy

/-- How revealing fails on a cycle. If links lead to it from the payload the walk fails, on a digest
met again unless there is something else to fail on; a walk that ends has not met the cycle, and
then some disclosure has no place. -/
structure FailsOnCycle (f : DigestFunction) (p : Payload) (ds : List Disclosure) (d : Disclosure)
    (e : RevealError) : Prop where
  walk : p.LeadsTo f ds d → ∀ t, table f p.algorithm ds = .ok t → p.walk t ds.length = .error e
  repeated : p.LeadsTo f ds d → p.Tidy f ds → ∃ g, e = .duplicateDigest g
  unresolved : ∀ t claims w, table f p.algorithm ds = .ok t →
    p.walk t ds.length = .ok (claims, w) →
      digestUnder f p.algorithm d ∉ w.met ∧
      Members.get? w.placed (digestUnder f p.algorithm d) = none ∧
      ∃ d' ∈ ds, Members.get? w.placed (digestUnder f p.algorithm d') = none ∧
        e = .unresolvedDisclosure d'.text

variable {f : DigestFunction} {p : Payload} {ds : List Disclosure} {d : Disclosure}

theorem repeated_of_walk (halg : p.algorithm.isSome = true) (htidy : p.Tidy f ds) {t : Table}
    (ht : table f p.algorithm ds = .ok t) {n : Nat} {e : RevealError}
    (h : p.walk t n = .error e) : ∃ g, e = .duplicateDigest g := by
  obtain ⟨hn, -, rfl⟩ := table_eq_ok_iff.1 ht
  have hdisc : ∀ g c, (tableOf f p.algorithm ds).Discloses g c →
      c.value.Everywhere (tableOf f p.algorithm ds).Tidy := by
    intro g c hc
    obtain ⟨d', hd', -, rfl⟩ := (discloses_tableOf_iff hn).1 hc
    exact htidy.2 d' hd'
  have hbelow : ∀ g c, (tableOf f p.algorithm ds).Discloses g c →
      FailsOnRepeats (visitBelow (tableOf f p.algorithm ds) n c.value) :=
    fun g c hc => failsOnRepeats_visitBelow halg hdisc n (hdisc g c hc)
  obtain ⟨hobject, hmembers⟩ := Value.everywhere_object_iff.1 htidy.1
  exact repeated_of_visitObject halg
    (fun m hm => failsOnRepeats_visit halg hbelow (hmembers m hm)) hbelow hobject h

theorem unresolved_of_walk {e : RevealError} (h : p.reveal f ds = .error e) {t : Table}
    {claims : Members} {w : Walk} (ht : table f p.algorithm ds = .ok t)
    (hw : p.walk t ds.length = .ok (claims, w)) :
    ∃ d ∈ ds, Members.get? w.placed (digestUnder f p.algorithm d) = none ∧
      e = .unresolvedDisclosure d.text := by
  have hps : places w t.entries = .error e := by
    simpa [reveal_eq_error_iff, ht, hw] using h
  obtain ⟨-, -, rfl⟩ := table_eq_ok_iff.1 ht
  obtain ⟨entry, hentry, hnone, rfl⟩ := exists_unresolvedDisclosure hps
  obtain ⟨d, hd, rfl⟩ := List.mem_map.1 hentry
  exact ⟨d, hd, hnone, rfl⟩

section Sorted
variable (hp : Value.Sorted (.object p.claims))
  (hds : ∀ d ∈ ds, Value.Sorted d.concealed.value)
include hp hds

theorem exists_error_of_onCycle (hd : p.OnCycle f ds d) : ∃ e, p.reveal f ds = .error e := by
  cases h : p.reveal f ds with
  | error e => exact ⟨e, rfl⟩
  | ok r =>
    obtain ⟨claims, ps⟩ := r
    obtain ⟨o, ho, hclaims⟩ := exists_reveals hp hds h
    have hpath : digestUnder f p.algorithm d ∈ o.paths.map Prod.fst :=
      (perm_fst_paths ho hclaims h).mem_iff.2 (List.mem_map.2 ⟨d, hd.mem, rfl⟩)
    refine absurd ?_ (notMem_digests_of_onCycle ho hds hd)
    exact o.perm_digests.mem_iff.2 (List.mem_append_left _ hpath)

theorem walk_of_leadsTo (hd : p.OnCycle f ds d) (hlead : p.LeadsTo f ds d) {e : RevealError}
    (h : p.reveal f ds = .error e) {t : Table} (ht : table f p.algorithm ds = .ok t) :
    p.walk t ds.length = .error e := by
  rcases reveal_eq_error_iff.1 h with ht' | ⟨t', ht', hw⟩
  · rw [ht] at ht'
    cases ht'
  · rw [ht] at ht'
    cases ht'
    rcases hw with hw | ⟨claims, w, hw, -⟩
    · exact hw
    · obtain ⟨o, ho, -, -⟩ := exists_reveals_of_walk hp hds ht hw
      exact absurd (mem_digests_of_leadsTo ho hds hp hlead) (notMem_digests_of_onCycle ho hds hd)

theorem not_placed_of_onCycle (hd : p.OnCycle f ds d) {t : Table} {claims : Members} {w : Walk}
    (ht : table f p.algorithm ds = .ok t) (hw : p.walk t ds.length = .ok (claims, w)) :
    digestUnder f p.algorithm d ∉ w.met ∧
      Members.get? w.placed (digestUnder f p.algorithm d) = none := by
  obtain ⟨o, ho, -, hadv⟩ := exists_reveals_of_walk hp hds ht hw
  obtain ⟨hmet, hplaced⟩ := hadv.of_start
  have hnot := notMem_digests_of_onCycle ho hds hd
  refine ⟨fun hm => hnot (hmet.mem_iff.1 hm), Members.get?_eq_none_iff.2 fun hm => hnot ?_⟩
  rw [Members.names, (hplaced.map Prod.fst).mem_iff, ← Members.names,
    Opening.names_placesAt] at hm
  exact o.perm_digests.mem_iff.2 (List.mem_append_left _ hm)

theorem failsOnCycle (hd : p.OnCycle f ds d) {e : RevealError} (h : p.reveal f ds = .error e) :
    p.FailsOnCycle f ds d e where
  walk hlead _ ht := walk_of_leadsTo hp hds hd hlead h ht
  repeated hlead htidy := by
    obtain ⟨a, ha⟩ := hd.exists_algorithm
    have halg : p.algorithm.isSome = true := by rw [ha]; rfl
    cases ht : table f p.algorithm ds with
    | ok t => exact repeated_of_walk halg htidy ht (walk_of_leadsTo hp hds hd hlead h ht)
    | error e' =>
      have hreveal := reveal_eq_error_iff.2 (.inl ht)
      rw [h] at hreveal
      cases hreveal
      rcases table_eq_error ht with ⟨hnone, -⟩ | ⟨-, hrepeated⟩
      · simp [hnone] at halg
      · exact hrepeated
  unresolved t claims w ht hw := by
    obtain ⟨hmet, hplaced⟩ := not_placed_of_onCycle hp hds hd ht hw
    exact ⟨hmet, hplaced, unresolved_of_walk h ht hw⟩

end Sorted

/-- Revealing ends, whatever the digests are: it expands no disclosure twice, so never more of them
inside each other than there are. It fails if a presented disclosure lies on a cycle. -/
theorem reveal_ends (f : DigestFunction) (p : Payload) (ds : List Disclosure)
    (hp : Value.Sorted (.object p.claims)) (hds : ∀ d ∈ ds, Value.Sorted d.concealed.value) :
    (∀ depth, ds.length ≤ depth →
      (p.course f ds depth).outcome = some (p.reveal f ds) ∧
      (p.course f ds depth).expanded.Nodup ∧
      (p.course f ds depth).expanded ⊆ ds.map (digestUnder f p.algorithm)) ∧
    ∀ d, p.OnCycle f ds d → ∃ e, p.reveal f ds = .error e ∧ p.FailsOnCycle f ds d e := by
  refine ⟨fun depth hdepth => course_ends f p ds hdepth, fun d hd => ?_⟩
  obtain ⟨e, he⟩ := exists_error_of_onCycle hp hds hd
  exact ⟨e, he, failsOnCycle hp hds hd he⟩

/-! ### Two disclosures that name each other -/

/-- A member with an item in it that has the member in it again. No hash is known to have such
digests, so each disclosure is its own digest here. -/
def ringMember : Disclosure :=
  ⟨[97], "s", .member "m" (.array [.object [("...", .string "b")]])⟩

def ringItem : Disclosure := ⟨[98], "s", .item (.object [("_sd", .array [.string "a"])])⟩

def ringed : Payload := ⟨some .sha256, [("_sd", .array [.string "a"])]⟩

def unringed : Payload := ⟨some .sha256, [("n", .null)]⟩

theorem sorted_ring : ∀ d ∈ [ringMember, ringItem], Value.Sorted d.concealed.value := by
  simp [ringMember, ringItem, Concealed.value, Value.Sorted, Value.SortedMembers,
    Value.SortedItems, Members.Ascending]

theorem onCycle_ringMember {p : Payload} (hp : p.algorithm = some .sha256) :
    p.OnCycle (fun _ bs => Octets.ascii bs) [ringMember, ringItem] ringMember := by
  have hitem : p.Links (fun _ bs => Octets.ascii bs) [ringMember, ringItem] ringMember ringItem :=
    ⟨.head _, .tail _ (.head _), .sha256, hp, by decide⟩
  have hmember : p.Links (fun _ bs => Octets.ascii bs) [ringMember, ringItem] ringItem ringMember :=
    ⟨.tail _ (.head _), .head _, .sha256, hp, by decide⟩
  exact .head hitem (.single hmember)

theorem tidy_ringed : ringed.Tidy (fun _ bs => Octets.ascii bs) [ringMember, ringItem] := by
  have hmember : (tableOf (fun _ bs => Octets.ascii bs) ringed.algorithm
      [ringMember, ringItem]).find? "a" = some ringMember.concealed := rfl
  have hitem : (tableOf (fun _ bs => Octets.ascii bs) ringed.algorithm
      [ringMember, ringItem]).find? "b" = some ringItem.concealed := rfl
  have hobject : Value.Everywhere (tableOf (fun _ bs => Octets.ascii bs) ringed.algorithm
      [ringMember, ringItem]).Tidy (.object [("_sd", .array [.string "a"])]) := by
    refine ⟨⟨["a"], rfl, ?_, by decide⟩, ⟨?_, trivial, trivial⟩, trivial⟩
    · intro g hg v hv
      rw [List.mem_singleton.1 hg, hmember] at hv
      cases hv
    · intro v hv g hg
      rw [List.mem_singleton.1 hv] at hg
      cases hg
  have harray : Value.Everywhere (tableOf (fun _ bs => Octets.ascii bs) ringed.algorithm
      [ringMember, ringItem]).Tidy (.array [.object [("...", .string "b")]]) := by
    refine ⟨?_, ⟨⟨[], rfl, nofun, by decide⟩, trivial, trivial⟩, trivial⟩
    intro v hv g hg name u hu
    rw [List.mem_singleton.1 hv] at hg
    cases hg
    rw [hitem] at hu
    cases hu
  exact ⟨hobject, List.forall_mem_cons.2 ⟨harray, List.forall_mem_singleton.2 hobject⟩⟩

theorem reveal_ends_ring :
    ((ringed.course (fun _ bs => Octets.ascii bs) [ringMember, ringItem] 2).expanded.Nodup ∧
      ∃ g, ringed.reveal (fun _ bs => Octets.ascii bs) [ringMember, ringItem] =
        .error (.duplicateDigest g)) ∧
    ∃ d ∈ [ringMember, ringItem], unringed.reveal (fun _ bs => Octets.ascii bs)
      [ringMember, ringItem] = .error (.unresolvedDisclosure d.text) := by
  have hringed : Value.Sorted (.object ringed.claims) := by
    simp [ringed, Value.Sorted, Value.SortedMembers, Value.SortedItems, Members.Ascending]
  have hunringed : Value.Sorted (.object unringed.claims) := by
    simp [unringed, Value.Sorted, Value.SortedMembers, Members.Ascending]
  obtain ⟨hcourse, hcycle⟩ := reveal_ends (fun _ bs => Octets.ascii bs) ringed
    [ringMember, ringItem] hringed sorted_ring
  refine ⟨⟨(hcourse 2 (Nat.le_refl _)).2.1, ?_⟩, ?_⟩
  · obtain ⟨e, he, hfails⟩ := hcycle ringMember (onCycle_ringMember rfl)
    have hlead : ringed.LeadsTo (fun _ bs => Octets.ascii bs) [ringMember, ringItem] ringMember :=
      ⟨ringMember, .head _, ⟨.sha256, rfl, by decide⟩, .refl⟩
    obtain ⟨g, rfl⟩ := hfails.repeated hlead tidy_ringed
    exact ⟨g, he⟩
  · obtain ⟨e, he, hfails⟩ := (reveal_ends (fun _ bs => Octets.ascii bs) unringed
      [ringMember, ringItem] hunringed sorted_ring).2 ringMember (onCycle_ringMember rfl)
    have hwalk : unringed.walk (tableOf (fun _ bs => Octets.ascii bs) (some .sha256)
        [ringMember, ringItem]) 2 = .ok ([("n", .null)], .start) := rfl
    obtain ⟨-, -, d, hd, -, rfl⟩ := hfails.unresolved _ _ _ rfl hwalk
    exact ⟨d, hd, he⟩

end Payload

end SelectiveDisclosure
