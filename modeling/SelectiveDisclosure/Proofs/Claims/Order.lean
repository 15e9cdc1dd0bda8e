import SelectiveDisclosure.Proofs.Token.Revealed
import SelectiveDisclosure.Proofs.Claims.Withholding

/-!
# The order of disclosures

A walk asks its table only what a digest stands for, so it goes the same way whatever order the
disclosures came in. Their places stand in that order, but each beside its disclosure, and the map
of a revealed token is kept by places.
-/

set_option autoImplicit false

namespace SelectiveDisclosure

open Json Reveal

/-- Errors of one kind, whatever digest, name or disclosure they speak of. -/
def RevealError.SameKind (e e' : RevealError) : Prop :=
  e.ctorIdx = e'.ctorIdx

namespace Reveal

/-! ## Walks with one table or another -/

structure Table.Agree (t u : Table) : Prop where
  algorithm : t.algorithm = u.algorithm
  find? : ∀ g, t.find? g = u.find? g

section Agree
variable {t u : Table} (h : t.Agree u)
include h

theorem Table.Agree.meet (g : String) (w : Walk) : t.meet g w = u.meet g w := by
  rw [Table.meet, Table.meet, h.algorithm]

theorem Table.Agree.findMembers (place : Pointer) (found : List (String × Value))
    (items : List Value) (w : Walk) :
    t.findMembers place found items w = u.findMembers place found items w := by
  induction items generalizing found w with
  | nil => rfl
  | cons v r ih =>
    cases v with
    | string g => simp only [Table.findMembers, h.meet, h.find?, ih]
    | _ => rfl

theorem Table.Agree.disclosedMembers (place : Pointer) (digests : Option Value) (w : Walk) :
    t.disclosedMembers place digests w = u.disclosedMembers place digests w := by
  unfold Table.disclosedMembers
  split
  · rfl
  · exact h.findMembers ..
  · rfl

theorem Table.Agree.visitItems (below : Value → Visit) (place : Pointer) (i : Nat)
    (items : List (Value × Visit)) (w : Walk) :
    visitItems t below place i items w = visitItems u below place i items w := by
  induction items generalizing i w with
  | nil => rfl
  | cons item r ih => simp only [Reveal.visitItems, h.meet, h.find?, ih]

theorem Table.Agree.visitObject (below : Value → Visit)
    (members : List (String × Value × Visit)) (place : Pointer) (w : Walk) :
    visitObject t below members place w = visitObject u below members place w := by
  simp only [Reveal.visitObject, h.disclosedMembers]

theorem Table.Agree.visit (below : Value → Visit) (v : Value) :
    visit t below v = visit u below v := by
  induction v using Value.induct with
  | scalar v hdepth =>
    have hv := isScalar_of_depth_eq_zero hdepth
    funext place w
    rw [visit_of_isScalar t below hv, visit_of_isScalar u below hv]
  | array items ih =>
    have hitems : itemVisits t below items = itemVisits u below items := by
      rw [itemVisits_eq_map, itemVisits_eq_map]
      exact List.map_congr_left fun v hv => by rw [ih v hv]
    funext place w
    simp only [Reveal.visit, hitems, h.visitItems]
  | object ms ih =>
    have hmembers : memberVisits t below ms = memberVisits u below ms := by
      rw [memberVisits_eq_map, memberVisits_eq_map]
      exact List.map_congr_left fun m hm => by rw [ih m hm]
    funext place w
    simp only [Reveal.visit, hmembers, h.visitObject]

theorem Table.Agree.visitBelow (k : Nat) : visitBelow t k = visitBelow u k := by
  induction k with
  | zero => rfl
  | succ k ih =>
    funext v
    rw [Reveal.visitBelow, Reveal.visitBelow, ih, h.visit]

theorem Table.Agree.walk (p : Payload) (n : Nat) : p.walk t n = p.walk u n := by
  have hmembers : memberVisits t (Reveal.visitBelow u n) p.claims =
      memberVisits u (Reveal.visitBelow u n) p.claims := by
    rw [memberVisits_eq_map, memberVisits_eq_map]
    exact List.map_congr_left fun m _ => by rw [h.visit]
  rw [Payload.walk, Payload.walk, h.visitBelow, hmembers, h.visitObject]

end Agree

/-! ## Tables of the same disclosures -/

section Table
variable {f : DigestFunction} {algorithm : Option HashAlgorithm} {ds ds' : List Disclosure}

theorem agree_tableOf (hn : (ds.map (digestUnder f algorithm)).Nodup) (hp : ds.Perm ds') :
    (tableOf f algorithm ds).Agree (tableOf f algorithm ds') where
  algorithm := rfl
  find? g := by
    have hnames : (Members.names (tableOf f algorithm ds).entries).Nodup := by
      rw [tableOf, names_entriesOf]
      exact hn
    rw [Table.find?, Table.find?, Members.get?_perm hnames (hp.map _)]
    rfl

theorem exists_duplicateDigest {digest : Disclosure → String}
    {entries : List (String × Disclosure)} {e : RevealError}
    (h : tableEntries digest entries ds = .error e) : ∃ g, e = .duplicateDigest g := by
  induction ds generalizing entries with
  | nil => cases h
  | cons d r ih =>
    rw [tableEntries] at h
    split at h
    · cases h
      exact ⟨_, rfl⟩
    · exact ih h

theorem table_eq_error {e : RevealError} (h : table f algorithm ds = .error e) :
    algorithm = none ∧ e = .missingAlgorithm ∨
      algorithm.isSome = true ∧ ∃ g, e = .duplicateDigest g := by
  cases ds with
  | nil => cases h
  | cons d r =>
    cases algorithm with
    | none =>
      cases h
      exact .inl ⟨rfl, rfl⟩
    | some a =>
      cases hentries : tableEntries (Disclosure.digest f a) [] (d :: r) with
      | ok es => simp [table, hentries, bind, Except.bind, pure, Except.pure] at h
      | error e' =>
        simp only [table, hentries, bind, Except.bind, Except.error.injEq] at h
        subst h
        exact .inr ⟨rfl, exists_duplicateDigest hentries⟩

theorem table_perm_of_ok {t : Table} (hp : ds.Perm ds') (h : table f algorithm ds = .ok t) :
    t = tableOf f algorithm ds ∧ table f algorithm ds' = .ok (tableOf f algorithm ds') ∧
      t.Agree (tableOf f algorithm ds') := by
  obtain ⟨hn, halg, rfl⟩ := table_eq_ok_iff.1 h
  refine ⟨rfl, table_eq_ok_iff.2 ⟨(hp.map _).nodup_iff.1 hn, fun hne => halg ?_, rfl⟩,
    agree_tableOf hn hp⟩
  rintro rfl
  exact hne hp.nil_eq.symm

theorem table_perm_of_error {e : RevealError} (hp : ds.Perm ds')
    (h : table f algorithm ds = .error e) :
    ∃ e', table f algorithm ds' = .error e' ∧ e.SameKind e' := by
  cases h' : table f algorithm ds' with
  | ok t =>
    obtain ⟨-, hok, -⟩ := table_perm_of_ok hp.symm h'
    rw [h] at hok
    cases hok
  | error e' =>
    refine ⟨e', rfl, ?_⟩
    rcases table_eq_error h with ⟨halg, rfl⟩ | ⟨halg, g, rfl⟩ <;>
      rcases table_eq_error h' with ⟨halg', rfl⟩ | ⟨halg', g', rfl⟩
    · rfl
    · simp [halg] at halg'
    · simp [halg'] at halg
    · rfl

end Table

/-! ## Places -/

section Places
variable {w : Walk} {es : List (String × Disclosure)}

theorem exists_unresolvedDisclosure {e : RevealError} (h : places w es = .error e) :
    ∃ entry ∈ es, Members.get? w.placed entry.1 = none ∧
      e = .unresolvedDisclosure entry.2.text := by
  induction es with
  | nil => cases h
  | cons entry r ih =>
    rw [places] at h
    split at h
    · next hnone =>
      cases h
      exact ⟨entry, List.mem_cons_self, hnone, rfl⟩
    · rcases bind_eq_error_iff.1 h with h | ⟨ps, -, h⟩
      · obtain ⟨entry', hmem, hentry⟩ := ih h
        exact ⟨entry', List.mem_cons_of_mem _ hmem, hentry⟩
      · cases h

def Walk.placeOf (w : Walk) (digest : String) : Pointer :=
  (Members.get? w.placed digest).getD .root

theorem places_eq_ok_iff_forall {ps : List Pointer} :
    places w es = .ok ps ↔
      (∀ e ∈ es, (Members.get? w.placed e.1).isSome = true) ∧
        ps = es.map fun e => w.placeOf e.1 := by
  rw [places_eq_ok_iff]
  induction es generalizing ps with
  | nil => cases ps <;> simp
  | cons e r ih =>
    cases ps with
    | nil => simp
    | cons q qs =>
      rw [List.map_cons, List.map_cons, List.cons.injEq, ih, List.forall_mem_cons, List.map_cons,
        List.cons.injEq, Walk.placeOf]
      cases Members.get? w.placed e.1 with
      | none => simp
      | some q' =>
        rw [Option.some.injEq, Option.getD_some, eq_comm (a := q'), and_left_comm, and_assoc]
        exact (and_iff_right rfl).symm

end Places

end Reveal

/-! ## Maps of disclosures -/

namespace DisclosureMap

theorem places_insert (q : Pointer) (d : Disclosure) (m : DisclosureMap) :
    (insert q d m).places = Pointer.insertAscending q m.places := by
  induction m with
  | nil => rfl
  | cons e r ih =>
    obtain ⟨q', d'⟩ := e
    have hcons : places ((q', d') :: r) = q' :: places r := rfl
    rw [hcons, insert, Pointer.insertAscending]
    split
    · rfl
    · split
      · next heq =>
        rw [← heq]
        rfl
      · rw [← ih]
        rfl

theorem places_ofList (es : List (Pointer × Disclosure)) :
    (ofList es).places = Pointer.ascending (es.map Prod.fst) := by
  have hfold (m : DisclosureMap) : (es.foldl (fun m e => insert e.1 e.2 m) m).places =
      (es.map Prod.fst).foldl (fun sorted q => Pointer.insertAscending q sorted) m.places := by
    induction es generalizing m with
    | nil => rfl
    | cons e r ih => rw [List.foldl_cons, ih, places_insert, List.map_cons, List.foldl_cons]
  exact hfold []

def Ascending (m : DisclosureMap) : Prop :=
  m.Pairwise fun a b => a.1 < b.1

theorem Ascending.eq_of_perm {m n : DisclosureMap} (hm : m.Ascending) (hn : n.Ascending)
    (h : m.Perm n) : m = n :=
  List.Perm.eq_of_pairwise
    (fun _ _ _ _ hab hba => absurd (Pointer.lt_trans hab hba) (Pointer.lt_irrefl _)) hm hn h

theorem pairwise_ofList (es : List (Pointer × Disclosure)) :
    (ofList es).Pairwise fun a b => a.1 < b.1 := by
  have hasc := Pointer.pairwise_ascending (es.map Prod.fst)
  rw [← places_ofList, places, List.pairwise_map] at hasc
  exact hasc

theorem ofList_perm {es es' : List (Pointer × Disclosure)} (hn : (es.map Prod.fst).Nodup)
    (hp : es.Perm es') : ofList es = ofList es' := by
  have hsame : (ofList es).Perm (ofList es') :=
    ((perm_ofList hn).trans hp).trans (perm_ofList ((hp.map _).nodup_iff.1 hn)).symm
  exact Ascending.eq_of_perm (pairwise_ofList es) (pairwise_ofList es') hsame

end DisclosureMap

/-! ## Revealing -/

namespace Payload
variable {f : DigestFunction} {p : Payload} {ds ds' : List Disclosure}

theorem reveal_perm_of_ok {claims : Members} {ps : List Pointer} (hp : ds.Perm ds')
    (h : p.reveal f ds = .ok (claims, ps)) :
    ∃ ps', p.reveal f ds' = .ok (claims, ps') ∧ (ps.zip ds).Perm (ps'.zip ds') := by
  obtain ⟨t, w, ht, hw, hps⟩ := reveal_eq_ok_iff.1 h
  obtain ⟨rfl, ht', hagree⟩ := table_perm_of_ok hp ht
  rw [hagree.walk, hp.length_eq] at hw
  obtain ⟨hfound, rfl⟩ := places_eq_ok_iff_forall.1 hps
  have hentries (l : List Disclosure) : (tableOf f p.algorithm l).entries =
      l.map fun d => (digestUnder f p.algorithm d, d) := rfl
  have hzip (l : List Disclosure) : ((tableOf f p.algorithm l).entries.map fun e =>
      w.placeOf e.1).zip l = l.map fun d => (w.placeOf (digestUnder f p.algorithm d), d) := by
    rw [hentries, List.map_map]
    conv_lhs => arg 2; rw [← List.map_id l]
    rw [List.zip_map']
    rfl
  refine ⟨_, reveal_eq_ok_iff.2 ⟨_, w, ht', hw, places_eq_ok_iff_forall.2 ⟨?_, rfl⟩⟩, ?_⟩
  · intro e he
    exact hfound e (((hp.map _).mem_iff).2 he)
  · rw [hzip, hzip]
    exact hp.map _

theorem reveal_eq_error_iff {e : RevealError} :
    p.reveal f ds = .error e ↔ table f p.algorithm ds = .error e ∨
      ∃ t, table f p.algorithm ds = .ok t ∧ (p.walk t ds.length = .error e ∨
        ∃ claims w, p.walk t ds.length = .ok (claims, w) ∧ places w t.entries = .error e) := by
  simp only [reveal, walk, bind_eq_error_iff, Prod.exists, pure, Except.pure, reduceCtorEq,
    and_false, exists_false, or_false]

theorem reveal_perm_of_error {e : RevealError} (hp : ds.Perm ds')
    (h : p.reveal f ds = .error e) : ∃ e', p.reveal f ds' = .error e' ∧ e.SameKind e' := by
  rcases reveal_eq_error_iff.1 h with ht | ⟨t, ht, hw | ⟨claims, w, hw, hps⟩⟩
  · obtain ⟨e', ht', hkind⟩ := table_perm_of_error hp ht
    exact ⟨e', reveal_eq_error_iff.2 (.inl ht'), hkind⟩
  · obtain ⟨-, ht', hagree⟩ := table_perm_of_ok hp ht
    rw [hagree.walk, hp.length_eq] at hw
    exact ⟨e, reveal_eq_error_iff.2 (.inr ⟨_, ht', .inl hw⟩), rfl⟩
  · obtain ⟨rfl, ht', hagree⟩ := table_perm_of_ok hp ht
    obtain ⟨_, -, -, rfl⟩ := exists_unresolvedDisclosure hps
    rw [hagree.walk, hp.length_eq] at hw
    cases hps' : places w (tableOf f p.algorithm ds').entries with
    | error e' =>
      obtain ⟨_, -, -, rfl⟩ := exists_unresolvedDisclosure hps'
      exact ⟨_, reveal_eq_error_iff.2 (.inr ⟨_, ht', .inr ⟨claims, w, hw, hps'⟩⟩), rfl⟩
    | ok ps =>
      -- Then no place is missing in the first order either.
      have hok : p.reveal f ds' = .ok (claims, ps) := reveal_eq_ok_iff.2 ⟨_, w, ht', hw, hps'⟩
      obtain ⟨_, hok, -⟩ := reveal_perm_of_ok hp.symm hok
      rw [h] at hok
      cases hok

def nestedToken : Jws.Decoded Payload := ⟨[], .ofAlgorithm .es256, nested, []⟩

def nestedMap : DisclosureMap :=
  [((Pointer.root.push "l").pushIndex 0, nestedItem), (Pointer.root.push "m", nestedMember),
    ((Pointer.root.push "m").push "n", innerMember)]

end Payload

namespace Token.Decoded
open Payload

theorem reveal_perm_of_ok {f : DigestFunction} {jwt : Jws.Decoded Payload}
    {ds ds' : List Disclosure} (hp : Value.Sorted (.object jwt.payload.claims))
    (hds : ∀ d ∈ ds, Value.Sorted d.concealed.value) (hperm : ds.Perm ds') {r : Revealed}
    (h : reveal f ⟨jwt, ds⟩ = .ok r) : reveal f ⟨jwt, ds'⟩ = .ok r := by
  simp only [reveal, bind_eq_ok_iff, Prod.exists] at h
  obtain ⟨claims, ps, hr, h⟩ := h
  cases h
  obtain ⟨ps', hr', hzip⟩ := Payload.reveal_perm_of_ok hperm hr
  obtain ⟨hlen, hn⟩ := Payload.nodup_places hp hds hr
  have hmap : DisclosureMap.ofList (ps.zip ds) = DisclosureMap.ofList (ps'.zip ds') := by
    refine DisclosureMap.ofList_perm ?_ hzip
    rw [List.map_fst_zip (Nat.le_of_eq hlen)]
    exact hn
  simp only [reveal, bind_eq_ok_iff, Prod.exists]
  exact ⟨claims, ps', hr', by rw [hmap]; rfl⟩

theorem reveal_eq_error_iff {f : DigestFunction} {t : Decoded} {e : RevealError} :
    t.reveal f = .error e ↔ t.jwt.payload.reveal f t.disclosures = .error e := by
  simp only [reveal, bind_eq_error_iff, pure, Except.pure, reduceCtorEq, and_false, exists_false,
    or_false]

/-- A token reveals the same claims and the same map of disclosures in whatever order these are
presented, or fails with the same kind of error. -/
theorem reveal_perm (f : DigestFunction) (jwt : Jws.Decoded Payload) (ds ds' : List Disclosure)
    (hp : Value.Sorted (.object jwt.payload.claims))
    (hds : ∀ d ∈ ds, Value.Sorted d.concealed.value) (hperm : ds.Perm ds') :
    (∀ r, reveal f ⟨jwt, ds⟩ = .ok r ↔ reveal f ⟨jwt, ds'⟩ = .ok r) ∧
      ∀ e, reveal f ⟨jwt, ds⟩ = .error e →
        ∃ e', reveal f ⟨jwt, ds'⟩ = .error e' ∧ e.SameKind e' := by
  have hds' : ∀ d ∈ ds', Value.Sorted d.concealed.value := fun d hd =>
    hds d (hperm.mem_iff.2 hd)
  refine ⟨fun r => ⟨reveal_perm_of_ok hp hds hperm, reveal_perm_of_ok hp hds' hperm.symm⟩, ?_⟩
  intro e h
  obtain ⟨e', h', hkind⟩ := Payload.reveal_perm_of_error hperm (reveal_eq_error_iff.1 h)
  exact ⟨e', reveal_eq_error_iff.2 h', hkind⟩

theorem reveal_nestedToken :
    reveal HashAlgorithm.digest ⟨nestedToken, [nestedMember, nestedItem, innerMember]⟩ =
      .ok ⟨nestedToken.withPayload nestedClaims, some .sha256, nestedMap⟩ := by
  have hmap : nestedMap = DisclosureMap.ofList
      (nestedPlaces.zip [nestedMember, nestedItem, innerMember]) := by
    decide +kernel
  rw [hmap, reveal, bind_eq_ok_iff]
  exact ⟨_, reveal_nested, rfl⟩

theorem reveal_perm_nested :
    reveal HashAlgorithm.digest ⟨nestedToken, [innerMember, nestedMember, nestedItem]⟩ =
      .ok ⟨nestedToken.withPayload nestedClaims, some .sha256, nestedMap⟩ ∧
    ∃ e, reveal HashAlgorithm.digest ⟨nestedToken, [innerMember, nestedItem]⟩ = .error e ∧
      (RevealError.unresolvedDisclosure innerMember.text).SameKind e := by
  have hpart : nested.reveal HashAlgorithm.digest [nestedItem, innerMember] =
      .error (.unresolvedDisclosure innerMember.text) := by
    decide +kernel
  have hsub : ∀ d ∈ [nestedItem, innerMember], Value.Sorted d.concealed.value := fun d hd =>
    sorted_nestedDisclosures d (.tail _ hd)
  constructor
  · have hperm : ([nestedMember, nestedItem] ++ [innerMember]).Perm
        ([innerMember] ++ [nestedMember, nestedItem]) := List.perm_append_comm
    exact ((reveal_perm _ nestedToken _ _ sorted_nested sorted_nestedDisclosures hperm).1 _).1
      reveal_nestedToken
  · have hperm : [nestedItem, innerMember].Perm [innerMember, nestedItem] := .swap ..
    exact (reveal_perm _ nestedToken _ _ sorted_nested hsub hperm).2 _
      (reveal_eq_error_iff.2 hpart)

end Token.Decoded

end SelectiveDisclosure
