import SelectiveDisclosure.Proofs.Claims.Trace
import SelectiveDisclosure.Proofs.Claims.Paths

/-!
# Revealed claims

A payload reveals claims exactly if it opens to them with its disclosures, and then only the places
of the disclosures are left to be found in the tree.
-/

set_option autoImplicit false

namespace SelectiveDisclosure

open Json

namespace Reveal

/-! ## Tables of disclosures -/

def digestUnder (f : DigestFunction) (algorithm : Option HashAlgorithm) (d : Disclosure) : String :=
  match algorithm with
  | some a => d.digest f a
  | none => ""

def entriesOf (digest : Disclosure → String) (ds : List Disclosure) : List (String × Disclosure) :=
  ds.map fun d => (digest d, d)

def tableOf (f : DigestFunction) (algorithm : Option HashAlgorithm) (ds : List Disclosure) :
    Table :=
  ⟨algorithm, entriesOf (digestUnder f algorithm) ds⟩

theorem names_entriesOf (digest : Disclosure → String) (ds : List Disclosure) :
    Members.names (entriesOf digest ds) = ds.map digest := by
  simp [entriesOf, Members.names, Function.comp_def]

theorem tableEntries_eq_ok_iff {digest : Disclosure → String} {ds : List Disclosure}
    {entries es : List (String × Disclosure)} (h : (Members.names entries).Nodup) :
    tableEntries digest entries ds = .ok es ↔
      (Members.names entries ++ ds.map digest).Nodup ∧ es = entries ++ entriesOf digest ds := by
  induction ds generalizing entries with
  | nil => simp [tableEntries, entriesOf, h, eq_comm]
  | cons d r ih =>
    rw [tableEntries]
    by_cases hd : digest d ∈ Members.names entries
    · simp only [hd, if_true, reduceCtorEq, false_iff]
      rintro ⟨hn, -⟩
      exact (List.nodup_append.1 hn).2.2 _ hd _ (by simp) rfl
    · simp only [hd, if_false]
      have hnames : Members.names (entries ++ [(digest d, d)]) =
          Members.names entries ++ [digest d] := List.map_append
      have hn : (Members.names (entries ++ [(digest d, d)])).Nodup := by
        rw [hnames, List.nodup_append]
        refine ⟨h, List.nodup_cons.2 ⟨List.not_mem_nil, List.Pairwise.nil⟩, fun a ha b hb heq => ?_⟩
        rw [List.mem_singleton.1 hb] at heq
        exact hd (heq ▸ ha)
      rw [ih hn, hnames]
      simp [entriesOf]

theorem table_eq_ok_iff {f : DigestFunction} {algorithm : Option HashAlgorithm}
    {ds : List Disclosure} {t : Table} :
    table f algorithm ds = .ok t ↔
      (ds.map (digestUnder f algorithm)).Nodup ∧ (ds ≠ [] → algorithm.isSome = true) ∧
        t = tableOf f algorithm ds := by
  cases ds with
  | nil => simp [table, tableOf, entriesOf, eq_comm (a := t)]
  | cons d r =>
    cases algorithm with
    | none => simp [table]
    | some a =>
      have hempty : (Members.names ([] : List (String × Disclosure))).Nodup := List.Pairwise.nil
      have hentries (es : List (String × Disclosure)) :
          tableEntries (Disclosure.digest f a) [] (d :: r) = .ok es ↔
            ((d :: r).map (digestUnder f (some a))).Nodup ∧
              es = entriesOf (digestUnder f (some a)) (d :: r) :=
        tableEntries_eq_ok_iff hempty
      simp only [table]
      rw [bind_eq_ok_iff]
      constructor
      · rintro ⟨es, hes, ht⟩
        cases ht
        obtain ⟨hn, rfl⟩ := (hentries es).1 hes
        refine ⟨hn, fun _ => rfl, rfl⟩
      · rintro ⟨hn, -, rfl⟩
        exact ⟨_, (hentries _).2 ⟨hn, rfl⟩, rfl⟩

section Table
variable {f : DigestFunction} {algorithm : Option HashAlgorithm} {ds : List Disclosure}

theorem discloses_tableOf_iff (h : (ds.map (digestUnder f algorithm)).Nodup) {g : String}
    {c : Concealed} :
    (tableOf f algorithm ds).Discloses g c ↔
      ∃ d ∈ ds, digestUnder f algorithm d = g ∧ d.concealed = c := by
  rw [Table.Discloses, Table.find?, Option.map_eq_some_iff]
  constructor
  · rintro ⟨d, hd, rfl⟩
    obtain ⟨d', hd', heq⟩ := List.mem_map.1 (Members.mem_of_get? hd)
    cases heq
    exact ⟨d, hd', rfl, rfl⟩
  · rintro ⟨d, hd, rfl, rfl⟩
    refine ⟨d, Members.get?_of_mem_of_nodup ?_ ?_, rfl⟩
    · rw [tableOf, names_entriesOf]
      exact h
    · exact List.mem_map.2 ⟨d, hd, rfl⟩

theorem withholds_tableOf_iff {g : String} :
    (tableOf f algorithm ds).Withholds g ↔ ∀ d ∈ ds, digestUnder f algorithm d ≠ g := by
  rw [Table.Withholds, Table.find?, Option.map_eq_none_iff, Members.get?_eq_none_iff, tableOf,
    names_entriesOf, List.mem_map]
  constructor
  · intro h d hd heq
    exact h ⟨d, hd, heq⟩
  · rintro h ⟨d, hd, heq⟩
    exact h d hd heq

end Table

/-! ## Places of disclosures -/

theorem places_eq_ok_iff {w : Walk} {es : List (String × Disclosure)} {ps : List Pointer} :
    places w es = .ok ps ↔ es.map (fun e => Members.get? w.placed e.1) = ps.map some := by
  induction es generalizing ps with
  | nil => cases ps <;> simp [places]
  | cons e r ih =>
    obtain ⟨g, d⟩ := e
    rw [places]
    cases hg : Members.get? w.placed g with
    | none => cases ps <;> simp [hg]
    | some p =>
      simp only [bind_eq_ok_iff, ih, List.map_cons, hg]
      cases ps with
      | nil => simp [pure, Except.pure]
      | cons q r' =>
        constructor
        · rintro ⟨qs, hq, heq⟩
          cases heq
          rw [hq, List.map_cons]
        · intro heq
          obtain ⟨hp, hq⟩ := List.cons.inj heq
          cases hp
          exact ⟨r', hq, rfl⟩

theorem places_error {w : Walk} {l : List (String × Disclosure)}
    (h : ∃ e ∈ l, Members.get? w.placed e.1 = none) :
    ∃ text, places w l = .error (.unresolvedDisclosure text) := by
  induction l with
  | nil => simp at h
  | cons e r ih =>
    obtain ⟨g, d⟩ := e
    rw [places]
    cases hg : Members.get? w.placed g with
    | none => exact ⟨_, rfl⟩
    | some p =>
      have hr : ∃ e ∈ r, Members.get? w.placed e.1 = none := by
        obtain ⟨e, he, hnone⟩ := h
        rcases List.mem_cons.1 he with rfl | he
        · rw [hg] at hnone
          cases hnone
        · exact ⟨e, he, hnone⟩
      obtain ⟨text, htext⟩ := ih hr
      exact ⟨text, by simp [htext, bind, Except.bind]⟩

theorem places_congr {w w' : Walk} (h : ∀ g, Members.get? w.placed g = Members.get? w'.placed g)
    (es : List (String × Disclosure)) : places w es = places w' es := by
  induction es with
  | nil => rfl
  | cons e r ih => rw [places, places, h, ih]

end Reveal

open Reveal

/-- The payload opens to a tree with the disclosures. -/
structure Payload.Reveals (f : DigestFunction) (p : Payload) (ds : List Disclosure) (o : Opening) :
    Prop where
  distinct : (ds.map (digestUnder f p.algorithm)).Nodup
  opens : Opens (tableOf f p.algorithm ds).Discloses (tableOf f p.algorithm ds).Withholds o
    (.object p.claims)
  nodup : o.digests.Nodup
  algorithm : ds ≠ [] ∨ o.digests ≠ [] → p.algorithm.isSome = true

namespace Payload
variable {f : DigestFunction} {p : Payload} {ds : List Disclosure} {o : Opening}

theorem Reveals.nodup_fst (h : p.Reveals f ds o) : (o.paths.map Prod.fst).Nodup :=
  (List.nodup_append.1 (o.perm_digests.nodup_iff.1 h.nodup)).1

theorem Reveals.length_paths (h : p.Reveals f ds o) : o.paths.length ≤ ds.length := by
  have hsub : o.paths.map Prod.fst ⊆ ds.map (digestUnder f p.algorithm) := by
    intro g hg
    obtain ⟨e, he, rfl⟩ := List.mem_map.1 hg
    obtain ⟨c, hc⟩ := o.disclosed_of_mem_paths h.opens e he
    obtain ⟨d, hd, hdg, -⟩ := (discloses_tableOf_iff h.distinct).1 hc
    exact List.mem_map.2 ⟨d, hd, hdg⟩
  simpa using h.nodup_fst.length_le_of_subset hsub

def walk (p : Payload) (t : Table) (n : Nat) : Except RevealError (Members × Walk) :=
  visitObject t (visitBelow t n) (memberVisits t (visitBelow t n) p.claims) .root .start

theorem reveal_eq_ok_iff {claims : Members} {ps : List Pointer} :
    p.reveal f ds = .ok (claims, ps) ↔ ∃ t w, table f p.algorithm ds = .ok t ∧
      p.walk t ds.length = .ok (claims, w) ∧ places w t.entries = .ok ps := by
  simp only [reveal, bind_eq_ok_iff, Prod.exists]
  constructor
  · rintro ⟨t, ht, _, w, hw, _, hps, h⟩
    cases h
    exact ⟨t, w, ht, hw, hps⟩
  · rintro ⟨t, w, ht, hw, hps⟩
    exact ⟨t, ht, claims, w, hw, ps, hps, rfl⟩

theorem Reveals.exists_walk (h : p.Reveals f ds o) {claims : Members}
    (hclaims : o.value = .object claims) :
    ∃ w, p.walk (tableOf f p.algorithm ds) ds.length = .ok (claims, w) ∧
      Walk.start.Advances w o.digests (Opening.placesAt .root o.paths) := by
  have hmet : (o.digests ++ Walk.start.met).Nodup := by
    rw [show Walk.start.met = [] from rfl, List.append_nil]
    exact h.nodup
  obtain ⟨w, hw, hadv⟩ := visit_of_opens _ o h.opens h.length_paths .root .start hmet
    fun g hg => h.algorithm (.inr (List.ne_nil_of_mem hg))
  rw [visit, bind_eq_ok_iff] at hw
  obtain ⟨⟨ms, w'⟩, hvisit, hr⟩ := hw
  rw [hclaims] at hr
  cases hr
  exact ⟨_, hvisit, hadv⟩

theorem Reveals.table_eq (h : p.Reveals f ds o) :
    table f p.algorithm ds = .ok (tableOf f p.algorithm ds) :=
  table_eq_ok_iff.2 ⟨h.distinct, fun hne => h.algorithm (.inl hne), rfl⟩

theorem reveal_of_reveals (h : p.Reveals f ds o) {claims : Members}
    (hclaims : o.value = .object claims) :
    p.reveal f ds = (places ⟨o.digests, Opening.placesAt .root o.paths⟩
      (entriesOf (digestUnder f p.algorithm) ds)).map fun ps => (claims, ps) := by
  obtain ⟨w, hwalk, hadv⟩ := h.exists_walk hclaims
  have hplaced : ∀ g, Members.get? w.placed g =
      Members.get? (Opening.placesAt .root o.paths) g := by
    have hperm := hadv.of_start.2
    refine Members.get?_perm ((hperm.map Prod.fst).nodup_iff.2 ?_) hperm
    rw [← Members.names, Opening.names_placesAt]
    exact h.nodup_fst
  have hplaces : places w (entriesOf (digestUnder f p.algorithm) ds) =
      places ⟨o.digests, Opening.placesAt .root o.paths⟩ _ := places_congr hplaced _
  rw [walk] at hwalk
  simp only [reveal, h.table_eq, hwalk, bind, Except.bind]
  rw [show (tableOf f p.algorithm ds).entries = entriesOf (digestUnder f p.algorithm) ds from rfl,
    hplaces]
  cases places ⟨o.digests, Opening.placesAt .root o.paths⟩
    (entriesOf (digestUnder f p.algorithm) ds) <;> rfl

theorem exists_reveals_of_walk (hp : Value.Sorted (.object p.claims))
    (hds : ∀ d ∈ ds, Value.Sorted d.concealed.value) {t : Table} {claims : Members} {w : Walk}
    (ht : table f p.algorithm ds = .ok t) (hw : p.walk t ds.length = .ok (claims, w)) :
    ∃ o, p.Reveals f ds o ∧ o.value = .object claims ∧
      Walk.start.Advances w o.digests (Opening.placesAt .root o.paths) := by
  obtain ⟨hn, halg, rfl⟩ := table_eq_ok_iff.1 ht
  have hsorted : ∀ g c, (tableOf f p.algorithm ds).Discloses g c → Value.Sorted c.value := by
    intro g c hc
    obtain ⟨d, hd, -, rfl⟩ := (discloses_tableOf_iff hn).1 hc
    exact hds d hd
  have hlength : (tableOf f p.algorithm ds).entries.length = ds.length := by
    simp [tableOf, entriesOf]
  rw [Value.sorted_object_iff] at hp
  obtain ⟨o, ho⟩ : ∃ o, Traced (tableOf f p.algorithm ds) o .root (.object p.claims) .start
      (.object claims, w) := by
    refine traced_of_visitObject hp.1 (n := 0) (fun g c hg => ?_) (fun m hm => ?_) hw
      List.Pairwise.nil (Nat.zero_le _)
    · exact (leavesTrace_visitBelow hsorted _ (hsorted g c hg)).mono (by omega)
    · apply leavesTrace_visit (hp.2 m hm)
      intro g c hg
      exact (leavesTrace_visitBelow hsorted _ (hsorted g c hg)).mono (by omega)
  refine ⟨o, ⟨hn, ho.opens, ?_, ?_⟩, ho.value.symm, ho.advances⟩
  · exact ho.advances.of_start.1.nodup_iff.1 ho.nodup
  · rintro (hne | hne)
    · exact halg hne
    · obtain ⟨g, hg⟩ := List.exists_mem_of_ne_nil _ hne
      exact ho.algorithm g hg

theorem exists_reveals (hp : Value.Sorted (.object p.claims))
    (hds : ∀ d ∈ ds, Value.Sorted d.concealed.value) {claims : Members} {ps : List Pointer}
    (h : p.reveal f ds = .ok (claims, ps)) :
    ∃ o, p.Reveals f ds o ∧ o.value = .object claims := by
  obtain ⟨t, w, ht, hw, -⟩ := reveal_eq_ok_iff.1 h
  obtain ⟨o, ho, hclaims, -⟩ := exists_reveals_of_walk hp hds ht hw
  exact ⟨o, ho, hclaims⟩

theorem places_of_reveals (h : p.Reveals f ds o) {claims : Members} {ps : List Pointer}
    (hclaims : o.value = .object claims) :
    p.reveal f ds = .ok (claims, ps) ↔
      ds.map (fun d => (Members.get? o.paths (digestUnder f p.algorithm d)).map
        (Pointer.pushAll .root)) = ps.map some := by
  rw [reveal_of_reveals h hclaims, map_eq_ok_iff]
  have hget (g : String) : Members.get? (Opening.placesAt .root o.paths) g =
      (Members.get? o.paths g).map (Pointer.pushAll .root) :=
    Members.get?_map (Pointer.pushAll .root) o.paths g
  simp only [Prod.mk.injEq, true_and, exists_eq_right, places_eq_ok_iff, entriesOf, List.map_map,
    Function.comp_def, hget]

theorem map_eq_map_some_iff {α β : Type} {F : α → Option β} {as : List α} {bs : List β} :
    as.map F = bs.map some ↔
      bs.length = as.length ∧ ∀ a b, (a, b) ∈ as.zip bs → F a = some b := by
  induction as generalizing bs with
  | nil => cases bs <;> simp
  | cons a r ih =>
    cases bs with
    | nil => simp
    | cons b r' =>
      rw [List.map_cons, List.map_cons, List.cons.injEq, ih, List.zip_cons_cons]
      simp only [List.length_cons, Nat.add_right_cancel_iff, List.mem_cons, Prod.mk.injEq]
      constructor
      · rintro ⟨hab, hlen, hall⟩
        refine ⟨hlen, fun a' b' hm => ?_⟩
        rcases hm with ⟨rfl, rfl⟩ | hm
        · exact hab
        · exact hall a' b' hm
      · rintro ⟨hlen, hall⟩
        exact ⟨hall a b (.inl ⟨rfl, rfl⟩), hlen, fun a' b' hm => hall a' b' (.inr hm)⟩

theorem exists_mem_zip {α β : Type} {as : List α} {bs : List β} (h : bs.length = as.length)
    {a : α} (ha : a ∈ as) : ∃ b, (a, b) ∈ as.zip bs := by
  rw [← List.map_fst_zip (Nat.le_of_eq h.symm)] at ha
  obtain ⟨e, he, rfl⟩ := List.mem_map.1 ha
  exact ⟨e.2, he⟩

theorem exists_map_some {α β : Type} {F : α → Option β} {as : List α}
    (h : ∀ a ∈ as, ∃ b, F a = some b) : ∃ bs : List β, as.map F = bs.map some := by
  induction as with
  | nil => exact ⟨[], rfl⟩
  | cons a r ih =>
    obtain ⟨b, hb⟩ := h a (by simp)
    obtain ⟨bs, hbs⟩ := ih fun a ha => h a (by simp [ha])
    exact ⟨b :: bs, by simp [hb, hbs]⟩

theorem mem_paths_iff (h : p.Reveals f ds o) {claims : Members} {ps : List Pointer}
    (hclaims : o.value = .object claims) (hr : p.reveal f ds = .ok (claims, ps)) {g : String}
    {path : List String} :
    (g, path) ∈ o.paths ↔
      ∃ d q, (d, q) ∈ ds.zip ps ∧ digestUnder f p.algorithm d = g ∧ q.decoded = path := by
  obtain ⟨hlen, hzip⟩ := map_eq_map_some_iff.1 ((places_of_reveals h hclaims).1 hr)
  have hplace {d : Disclosure} {q : Pointer} (hdq : (d, q) ∈ ds.zip ps) :
      (digestUnder f p.algorithm d, q.decoded) ∈ o.paths := by
    obtain ⟨path, hpath, rfl⟩ := Option.map_eq_some_iff.1 (hzip d q hdq)
    rw [Pointer.decoded_pushAll, Pointer.decoded_root, List.nil_append]
    exact Members.mem_of_get? hpath
  constructor
  · intro hm
    obtain ⟨c, hc⟩ := o.disclosed_of_mem_paths h.opens _ hm
    obtain ⟨d, hd, hdg, -⟩ := (discloses_tableOf_iff h.distinct).1 hc
    obtain ⟨q, hq⟩ := exists_mem_zip hlen hd
    refine ⟨d, q, hq, hdg, ?_⟩
    have h₁ := Members.get?_of_mem_of_nodup h.nodup_fst (hplace hq)
    have h₂ := Members.get?_of_mem_of_nodup h.nodup_fst hm
    rw [hdg] at h₁
    exact Option.some.inj (h₁.symm.trans h₂)
  · rintro ⟨d, q, hdq, rfl, rfl⟩
    exact hplace hdq

end Payload

end SelectiveDisclosure
