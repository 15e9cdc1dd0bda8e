import SelectiveDisclosure.Proofs.Claims.Steps
import SelectiveDisclosure.Proofs.Claims.Revealed

/-!
# Concealed claims are revealed again

The claims before any concealment open to themselves. Each step of a concealment marks one part of
the tree, so at the end the concealed claims open to the former ones, with the places of the
disclosures as paths. The final check makes all digests of the tree distinct, whatever the digest
function is.
-/

set_option autoImplicit false

namespace SelectiveDisclosure

open Json Reveal

/-! ## Claims before any concealment -/

/-- A value without reserved names opens to itself. -/
structure Plain (D : String → Concealed → Prop) (o : Opening) (v : Value) : Prop where
  opens : Opens D (fun _ => True) o v
  dense : o.Dense
  value : o.value = v
  digests : o.digests = []
  paths : o.paths = []
  inValue : Digests.inValue v = []
  notPlaceholder : Digests.placeholder? v = none

namespace Conceal

theorem reservedInItems?_eq_none_iff {items : List Value} :
    reservedInItems? items = none ↔ ∀ v ∈ items, reservedIn? v = none := by
  induction items with
  | nil => simp [reservedInItems?]
  | cons v r ih => simp [reservedInItems?, Option.or_eq_none_iff, ih]

theorem reservedInMembers?_eq_none_iff {ms : Members} :
    reservedInMembers? ms = none ↔
      ∀ m ∈ ms, isReserved m.1 = false ∧ reservedIn? m.2 = none := by
  induction ms with
  | nil => simp [reservedInMembers?]
  | cons m r ih =>
    obtain ⟨k, v⟩ := m
    rw [reservedInMembers?]
    by_cases hk : isReserved k = true
    · simp [hk]
    · simp [hk, Option.or_eq_none_iff, ih]

theorem notMem_names_of_isReserved {ms : Members} (h : ∀ m ∈ ms, isReserved m.1 = false)
    {name : String} (hname : isReserved name = true) : name ∉ Members.names ms := by
  intro hmem
  obtain ⟨m, hm, rfl⟩ := List.mem_map.1 hmem
  rw [h m hm] at hname
  cases hname

end Conceal

section Plain
variable {D : String → Concealed → Prop}

structure PlainItems (D : String → Concealed → Prop) (cells : List (Cell Opening))
    (items : List Value) : Prop where
  opens : OpensItems D (fun _ => True) cells items
  dense : Opening.DenseCells cells
  values : Opening.cellValues cells = items
  digests : Opening.cellDigests cells = []
  paths : ∀ i, Opening.cellPaths i cells = []
  inItems : Digests.inItems items = []

structure PlainMembers (D : String → Concealed → Prop)
    (members : List (String × Option String × Opening)) (ms : Members) : Prop where
  opens : OpensMembers D (fun _ => True) members (ms.map fun m => (m.1, none, m.2))
  dense : Opening.DenseMembers members
  values : Opening.memberValues members = ms
  marks : marksOf members = []
  digests : Opening.memberDigests members = []
  markPaths : markPaths members = []
  paths : Opening.memberPaths members = []
  inMembers : Digests.inMembers ms = []

theorem exists_plainItems {items : List Value} (h : ∀ v ∈ items, ∃ o, Plain D o v) :
    ∃ cells, PlainItems D cells items := by
  induction items with
  | nil => exact ⟨[], by rw [OpensItems], trivial, rfl, rfl, fun _ => rfl, rfl⟩
  | cons v r ih =>
    obtain ⟨o, ho⟩ := h v List.mem_cons_self
    obtain ⟨cells, hcells⟩ := ih fun v hv => h v (List.mem_cons_of_mem _ hv)
    refine ⟨.clear o :: cells, ⟨v, r, rfl, ho.notPlaceholder, ho.opens, hcells.opens⟩,
      ⟨ho.dense, hcells.dense⟩, ?_, ?_, ?_, ?_⟩
    · rw [Opening.cellValues, ho.value, hcells.values]
    · rw [Opening.cellDigests, ho.digests, hcells.digests]
      rfl
    · intro i
      rw [Opening.cellPaths, ho.paths, hcells.paths]
      rfl
    · simp [Digests.inItems, ho.notPlaceholder, ho.inValue, hcells.inItems]

theorem exists_plainMembers {ms : Members} (hnames : ∀ m ∈ ms, isReserved m.1 = false)
    (h : ∀ m ∈ ms, ∃ o, Plain D o m.2) : ∃ members, PlainMembers D members ms := by
  induction ms with
  | nil => exact ⟨[], by rw [List.map_nil, OpensMembers], trivial, rfl, rfl, rfl, rfl, rfl, rfl⟩
  | cons m r ih =>
    obtain ⟨k, v⟩ := m
    obtain ⟨hk, hr⟩ := List.forall_mem_cons.1 hnames
    obtain ⟨o, ho⟩ := h (k, v) List.mem_cons_self
    obtain ⟨members, hmembers⟩ := ih hr fun m hm => h m (List.mem_cons_of_mem _ hm)
    have hnone : ∀ g, (none : Option String) = some g → D g (.member k v) := by
      intro g hg
      cases hg
    refine ⟨(k, none, o) :: members, ⟨v, _, rfl, hnone, ho.opens, hmembers.opens⟩,
      ⟨ho.dense, hmembers.dense⟩, ?_, hmembers.marks, ?_, hmembers.markPaths, ?_, ?_⟩
    · rw [Opening.memberValues, ho.value, hmembers.values]
    · rw [Opening.memberDigests, ho.digests, hmembers.digests]
      rfl
    · rw [Opening.memberPaths, ho.paths, hmembers.paths]
      rfl
    · rw [Digests.inMembers, if_neg (ne_of_not_isReserved hk).1, ho.inValue, hmembers.inMembers]
      rfl

theorem plain_array {items : List Value} (h : ∀ v ∈ items, ∃ o, Plain D o v) :
    ∃ o, Plain D o (.array items) := by
  obtain ⟨cells, hcells⟩ := exists_plainItems h
  exact ⟨.array cells, ⟨items, rfl, hcells.opens⟩, hcells.dense,
    by rw [Opening.value, hcells.values], hcells.digests, hcells.paths 0, hcells.inItems, rfl⟩

theorem plain_object {ms : Members} (hasc : Members.Ascending ms)
    (hnames : ∀ m ∈ ms, isReserved m.1 = false) (h : ∀ m ∈ ms, ∃ o, Plain D o m.2) :
    ∃ o, Plain D o (.object ms) := by
  obtain ⟨members, hmembers⟩ := exists_plainMembers hnames h
  have hsd : Digests.membersName ∉ Members.names ms := Conceal.notMem_names_of_isReserved hnames rfl
  have halg : Payload.algorithmName ∉ Members.names ms :=
    Conceal.notMem_names_of_isReserved hnames rfl
  have hdots : Digests.placeholderName ∉ Members.names ms :=
    Conceal.notMem_names_of_isReserved hnames rfl
  refine ⟨.object [] members, ⟨ms, [], ms.map fun m => (m.1, none, m.2), rfl, ?_, ?_, ?_, ?_, ?_,
    hmembers.opens⟩, hmembers.dense, by rw [Opening.value, hmembers.values], ?_, ?_,
    hmembers.inMembers, ?_⟩
  · exact digestTexts?_eq_some_iff.2 (.inl ⟨Members.get?_eq_none_iff.2 hsd, rfl⟩)
  · rw [own, Members.erase_of_notMem halg, Members.erase_of_notMem hsd, clearOf_map]
  · exact (ascending_iff_of_names (Members.names_map _ _)).2 hasc
  · rw [(marksOf_of_opensMembers hmembers.opens).1, hmembers.marks]
    exact List.Perm.refl _
  · intro g hg
    cases hg
  · rw [Opening.digests, hmembers.marks, hmembers.digests]
    rfl
  · rw [Opening.paths, hmembers.markPaths, hmembers.paths]
    rfl
  · cases hp : Digests.placeholder? (.object ms) with
    | none => rfl
    | some g =>
      rw [Value.object.inj (Digests.eq_placeholder hp)] at hdots
      exact absurd List.mem_cons_self hdots

theorem exists_plain {v : Value} (hs : Value.Sorted v) (hr : Conceal.reservedIn? v = none) :
    ∃ o, Plain D o v := by
  induction v using Value.induct with
  | scalar v hdepth =>
    have hscalar := isScalar_of_depth_eq_zero hdepth
    refine ⟨.leaf v, ⟨rfl, hscalar⟩, trivial, rfl, rfl, rfl, ?_, ?_⟩
    · cases v <;> first | rfl | exact hscalar.elim
    · cases v <;> first | rfl | exact hscalar.elim
  | array items ih =>
    rw [Value.sorted_array_iff] at hs
    rw [Conceal.reservedIn?, Conceal.reservedInItems?_eq_none_iff] at hr
    exact plain_array fun v hv => ih v hv (hs v hv) (hr v hv)
  | object ms ih =>
    rw [Value.sorted_object_iff] at hs
    rw [Conceal.reservedIn?, Conceal.reservedInMembers?_eq_none_iff] at hr
    exact plain_object hs.1 (fun m hm => (hr m hm).1)
      fun m hm => ih m hm (hs.2 m hm) (hr m hm).2

end Plain

/-! ## All places -/

theorem Concealer.concealAll_cons_eq_ok_iff {c : Concealer} {p : Pointer} {ps : List Pointer}
    {claims claims' : Members} {draw : Nat} {ds : List Disclosure} :
    c.concealAll (p :: ps) claims draw = .ok (claims', ds) ↔
      p.isRoot = false ∧ ∃ d claims₁ draw₁ ds₁,
        c.ConcealsAt draw p.tokens (.object claims) ⟨d, .object claims₁, draw₁⟩ ∧
          c.concealAll ps claims₁ draw₁ = .ok (claims', ds₁) ∧ ds = d :: ds₁ := by
  simp only [← concealAt_eq_some_iff]
  rw [concealAll]
  constructor
  · intro h
    split at h
    · cases h
    next hroot =>
    split at h
    · next d claims₁ draw₁ hstep =>
      rw [bind_eq_ok_iff] at h
      obtain ⟨⟨_, ds₁⟩, hrun, h⟩ := h
      cases h
      exact ⟨eq_false_of_ne_true hroot, d, claims₁, draw₁, ds₁, hstep, hrun, rfl⟩
    · cases h
  · rintro ⟨hroot, d, claims₁, draw₁, ds₁, hstep, hrun, rfl⟩
    rw [hroot, hstep, if_neg Bool.false_ne_true]
    simp only [hrun]
    rfl

/-- A run of concealment: each disclosure has the path of its place in the tree. -/
structure MarkedAll (D : String → Concealed → Prop) (c : Concealer) (ps : List Pointer)
    (ds : List Disclosure) (before after : Members) (o o' : Opening) : Prop where
  opens : Opens D (fun _ => True) o' (.object after)
  value : o'.value = o.value
  length : ds.length = ps.length
  paths : o'.paths.Perm ((ds.zip ps).map (fun e => (c.digest e.1.encoded, e.2.decoded)) ++ o.paths)
  digests : ∃ new, o'.digests.Perm (new ++ o.digests) ∧
    (Digests.inMembers after ++ ds.flatMap fun d => Digests.inValue d.concealed.value).Perm
      (new ++ Digests.inMembers before)
  sorted : Value.Sorted (.object after)

theorem notMem_paths_of_perm {o o' : Opening} {g : String} {p : Pointer} {ps : List Pointer}
    (h : o'.paths.Perm ((g, p.decoded) :: o.paths)) (hp : p ∉ ps)
    (hnew : ∀ q ∈ p :: ps, q.decoded ∉ o.paths.map Prod.snd) :
    ∀ q ∈ ps, q.decoded ∉ o'.paths.map Prod.snd := by
  intro q hq hmem
  rcases List.mem_cons.1 ((h.map Prod.snd).mem_iff.1 hmem) with heq | hmem
  · exact hp (Pointer.decoded_injective heq ▸ hq)
  · exact hnew q (List.mem_cons_of_mem _ hq) hmem

theorem markedAll_concealAll {c : Concealer} {D : String → Concealed → Prop} {ps : List Pointer}
    {claims claims' : Members} {o : Opening} {draw : Nat} {ds : List Disclosure}
    (hsorted : Value.Sorted (.object claims)) (ho : Opens D (fun _ => True) o (.object claims))
    (hdense : o.Dense) (hnames : ∀ p ∈ ps, ∀ t ∈ p.tokens, isReserved t.toDecoded = false)
    (hps : ps.Nodup) (hnew : ∀ p ∈ ps, p.decoded ∉ o.paths.map Prod.snd)
    (h : c.concealAll ps claims draw = .ok (claims', ds))
    (hD : ∀ d ∈ ds, D (c.digest d.encoded) d.concealed) :
    ∃ o', MarkedAll D c ps ds claims claims' o o' := by
  induction ps generalizing claims o draw ds with
  | nil =>
    rw [Concealer.concealAll] at h
    cases h
    refine ⟨o, ho, rfl, rfl, List.Perm.refl _, ⟨[], List.Perm.refl _, ?_⟩, hsorted⟩
    rw [List.flatMap_nil, List.append_nil]
    exact List.Perm.refl _
  | cons p r ih =>
    obtain ⟨hpr, hr⟩ := List.nodup_cons.1 hps
    obtain ⟨-, d, claims₁, draw₁, ds₂, hstep, hrun, rfl⟩ :=
      Concealer.concealAll_cons_eq_ok_iff.1 h
    obtain ⟨decoys, o₁, hmark⟩ := Concealer.marked_concealAt hsorted ho hdense
      (hnames p List.mem_cons_self) (hnew p List.mem_cons_self) hstep
      (hD d List.mem_cons_self)
    have hpaths : o₁.paths.Perm ((c.digest d.encoded, p.decoded) :: o.paths) := hmark.paths
    have hnew₁ := notMem_paths_of_perm hpaths hpr hnew
    obtain ⟨o₂, hall⟩ := ih hmark.sorted hmark.opens hmark.dense
      (fun q hq => hnames q (List.mem_cons_of_mem _ hq)) hr hnew₁ hrun
      fun d hd => hD d (List.mem_cons_of_mem _ hd)
    obtain ⟨new, hdigests, hin⟩ := hall.digests
    refine ⟨o₂, hall.opens, hall.value.trans hmark.value, by simp [hall.length], ?_, ?_,
      hall.sorted⟩
    · refine hall.paths.trans ((hpaths.append_left _).trans ?_)
      exact List.perm_middle
    · refine ⟨new ++ c.digest d.encoded :: decoys, ?_, ?_⟩
      · refine hdigests.trans ((hmark.digests.append_left new).trans ?_)
        rw [List.append_assoc]
        exact List.Perm.refl _
      · apply List.perm_iff_count.2
        intro a
        have h₁ := hin.count_eq a
        have h₂ := hmark.inValue.count_eq a
        simp only [Digests.inValue, List.flatMap_cons, List.count_append, List.count_cons] at *
        omega

theorem MarkedAll.perm_digests_of_plain {D D' : String → Concealed → Prop} {c : Concealer}
    {ps : List Pointer} {ds : List Disclosure} {before after : Members} {o o' : Opening}
    (h : MarkedAll D c ps ds before after o o') (ho : Plain D' o (.object before)) :
    o'.digests.Perm
      (Digests.inMembers after ++ ds.flatMap fun d => Digests.inValue d.concealed.value) := by
  obtain ⟨new, hdigests, hin⟩ := h.digests
  have hbefore : Digests.inMembers before = [] := ho.inValue
  rw [hbefore, List.append_nil] at hin
  rw [ho.digests, List.append_nil] at hdigests
  exact hdigests.trans hin.symm

namespace Conceal

theorem checkDigests_eq_ok_iff {claims : Members} {ds : List Disclosure} :
    checkDigests claims ds = .ok () ↔ (Digests.inMembers claims ++
      ds.flatMap fun d => Digests.inValue d.concealed.value).Nodup := by
  unfold checkDigests
  dsimp only
  split
  · next g hfirst =>
    constructor
    · rintro ⟨⟩
    · intro hnodup
      rw [Digests.firstRepeated?_eq_none_iff.2 ⟨hnodup, fun _ _ => List.not_mem_nil⟩] at hfirst
      cases hfirst
  · next hfirst => exact ⟨fun _ => (Digests.firstRepeated?_eq_none_iff.1 hfirst).1, fun _ => rfl⟩

end Conceal

namespace Payload
variable {f : DigestFunction} {how : Concealment} {claims : Members} {places : List Pointer}
  {payload : Payload} {ds : List Disclosure}

structure Conceals (f : DigestFunction) (how : Concealment) (claims : Members)
    (places : List Pointer) (payload : Payload) (ds : List Disclosure) : Prop where
  names : Conceal.reservedInMembers? claims = none
  tokens : ∀ p ∈ places, ∀ t ∈ p.tokens, isReserved t.toDecoded = false
  run : (⟨f how.algorithm, how.decoys, how.random⟩ : Concealer).concealAll
    (Pointer.ascending places).reverse claims 0 = .ok (payload.claims, ds)
  distinct : (Digests.inMembers payload.claims ++
    ds.flatMap fun d => Digests.inValue d.concealed.value).Nodup
  algorithm : payload.algorithm = if ds.isEmpty then none else some how.algorithm

theorem conceals_of_conceal (h : conceal f how claims places = .ok (payload, ds)) :
    Conceals f how claims places payload ds := by
  simp only [conceal] at h
  rw [bind_eq_ok_iff] at h
  obtain ⟨_, hnames, h⟩ := h
  rw [bind_eq_ok_iff] at h
  obtain ⟨⟨claims', ds'⟩, hrun, h⟩ := h
  rw [bind_eq_ok_iff] at h
  obtain ⟨_, hdigests, h⟩ := h
  cases h
  unfold Conceal.checkNames at hnames
  split at hnames
  · cases hnames
  next hnone =>
  rw [Option.or_eq_none_iff, List.find?_eq_none] at hnone
  refine ⟨hnone.1, fun p hp t ht => ?_, hrun, Conceal.checkDigests_eq_ok_iff.1 hdigests, rfl⟩
  have hmem : t.toDecoded ∈ (Pointer.ascending places).flatMap Pointer.decoded :=
    List.mem_flatMap.2 ⟨p, Pointer.mem_ascending.2 hp, List.mem_map.2 ⟨t, ht, rfl⟩⟩
  exact Bool.not_eq_true _ ▸ hnone.2 _ hmem

theorem pairwise_ascending_reverse (places : List Pointer) :
    (Pointer.ascending places).reverse.Pairwise fun p q => q < p :=
  List.pairwise_reverse.2 (Pointer.pairwise_ascending places)

theorem Conceals.digestUnder_eq (h : Conceals f how claims places payload ds) {d : Disclosure}
    (hd : d ∈ ds) : digestUnder f payload.algorithm d = f how.algorithm d.encoded := by
  have hne : ds.isEmpty = false := by
    cases ds with
    | nil => cases hd
    | cons e r => rfl
  rw [h.algorithm, hne]
  rfl

theorem Conceals.discloses_iff (h : Conceals f how claims places payload ds)
    (hdistinct : (ds.map (digestUnder f payload.algorithm)).Nodup) {g : String} {c : Concealed} :
    (tableOf f payload.algorithm ds).Discloses g c ↔
      ∃ d ∈ ds, f how.algorithm d.encoded = g ∧ d.concealed = c := by
  rw [discloses_tableOf_iff hdistinct]
  constructor
  · rintro ⟨d, hd, hg, hc⟩
    exact ⟨d, hd, (h.digestUnder_eq hd).symm.trans hg, hc⟩
  · rintro ⟨d, hd, hg, hc⟩
    exact ⟨d, hd, (h.digestUnder_eq hd).trans hg, hc⟩

theorem Conceals.claims_of_nil (h : Conceals f how claims places payload ds)
    (hplaces : (Pointer.ascending places).reverse = []) : payload.claims = claims := by
  have hrun := h.run
  rw [hplaces, Concealer.concealAll] at hrun
  cases hrun
  rfl

theorem exists_reveals_of_conceals (hs : Value.Sorted (.object claims))
    (h : Conceals f how claims places payload ds) :
    ∃ o, payload.Reveals f ds o ∧ o.value = .object claims ∧
      ds.length = (Pointer.ascending places).reverse.length ∧
      o.paths.Perm ((ds.zip (Pointer.ascending places).reverse).map fun e =>
        (digestUnder f payload.algorithm e.1, e.2.decoded)) ∧
      Value.Sorted (.object payload.claims) := by
  obtain ⟨o, ho⟩ := exists_plain (D := fun g c => ∃ d ∈ ds,
    f how.algorithm d.encoded = g ∧ d.concealed = c) hs h.names
  have hps : (Pointer.ascending places).reverse.Nodup := by
    apply (pairwise_ascending_reverse places).imp
    intro p q hpq heq
    exact Pointer.lt_irrefl q (heq ▸ hpq)
  obtain ⟨o', hall⟩ := markedAll_concealAll hs ho.opens ho.dense
    (fun p hp => h.tokens p (Pointer.mem_ascending.1 (List.mem_reverse.1 hp))) hps
    (by simp [ho.paths]) h.run fun d hd => ⟨d, hd, rfl, rfl⟩
  have hperm := hall.perm_digests_of_plain ho
  have hnodup : o'.digests.Nodup := hperm.nodup_iff.2 h.distinct
  have hpaths : o'.paths.Perm ((ds.zip (Pointer.ascending places).reverse).map fun e =>
      (digestUnder f payload.algorithm e.1, e.2.decoded)) := by
    apply hall.paths.trans
    rw [ho.paths, List.append_nil, List.map_congr_left]
    intro e he
    rw [h.digestUnder_eq (List.of_mem_zip he).1]
  have hfst : (o'.paths.map Prod.fst).Perm (ds.map (digestUnder f payload.algorithm)) := by
    apply (hpaths.map Prod.fst).trans
    rw [List.map_map]
    have hzip : (ds.zip (Pointer.ascending places).reverse).map Prod.fst = ds :=
      List.map_fst_zip (Nat.le_of_eq hall.length)
    rw [← hzip, List.map_map, hzip]
    exact List.Perm.refl _
  obtain ⟨hvisible, -, hdisjoint⟩ := List.nodup_append.1 (o'.perm_digests.nodup_iff.1 hnodup)
  have hdistinct : (ds.map (digestUnder f payload.algorithm)).Nodup := hfst.nodup_iff.1 hvisible
  refine ⟨o', ⟨hdistinct, ?_, hnodup, ?_⟩, hall.value.trans ho.value, hall.length, hpaths,
    hall.sorted⟩
  · have hD : (tableOf f payload.algorithm ds).Discloses = fun g c => ∃ d ∈ ds,
        f how.algorithm d.encoded = g ∧ d.concealed = c :=
      funext fun g => funext fun c => propext (h.discloses_iff hdistinct)
    rw [hD]
    apply o'.opens_of_hidden hall.opens
    intro g hg _
    rw [withholds_tableOf_iff]
    intro d hd heq
    refine hdisjoint g (hfst.mem_iff.2 ?_) g hg rfl
    exact List.mem_map.2 ⟨d, hd, heq⟩
  · intro hne
    rw [h.algorithm]
    cases hds : ds with
    | cons d r => rfl
    | nil =>
      -- No disclosure, so no place, and there are no decoys either.
      have hlen := hall.length
      rw [hds, List.length_nil] at hlen
      have hsame : Digests.inMembers payload.claims = [] :=
        h.claims_of_nil (List.eq_nil_of_length_eq_zero hlen.symm) ▸ ho.inValue
      rw [hds, hsame] at hperm
      exact absurd hne (by simp [hds, hperm.eq_nil])

theorem reveal_of_conceals (hs : Value.Sorted (.object claims))
    (h : Conceals f how claims places payload ds) :
    payload.reveal f ds = .ok (claims, (Pointer.ascending places).reverse) := by
  obtain ⟨o, ho, hvalue, hlen, hpaths, -⟩ := exists_reveals_of_conceals hs h
  rw [places_of_reveals ho hvalue, map_eq_map_some_iff]
  refine ⟨hlen.symm, fun d q hdq => ?_⟩
  have hmem : (digestUnder f payload.algorithm d, q.decoded) ∈ o.paths :=
    hpaths.mem_iff.2 (List.mem_map.2 ⟨(d, q), hdq, rfl⟩)
  rw [Members.get?_of_mem_of_nodup ho.nodup_fst hmem, Option.map_some, Pointer.pushAll_decoded]

/-- Concealing claims and revealing all of them gives the claims back, each disclosure at its
place, and the places are those that were given, each once and in descending order. -/
theorem reveal_conceal (f : DigestFunction) (how : Concealment) (claims : Members)
    (places : List Pointer) (payload : Payload) (ds : List Disclosure)
    (hs : Value.Sorted (.object claims))
    (h : conceal f how claims places = .ok (payload, ds)) :
    ∃ ps, payload.reveal f ds = .ok (claims, ps) ∧ ps.Pairwise (fun p q => q < p) ∧
      ∀ p, p ∈ ps ↔ p ∈ places := by
  refine ⟨_, reveal_of_conceals hs (conceals_of_conceal h), pairwise_ascending_reverse places, ?_⟩
  intro p
  rw [List.mem_reverse, Pointer.mem_ascending]

/-- An item, the array around it and the object around that are concealed, with a decoy for each
object. -/
theorem reveal_conceal_nested :
    ∃ payload ds, conceal HashAlgorithm.digest ⟨.sha256, 1, fun n => [UInt8.ofNat n]⟩
        [("a", .object [("b", .array [.bool true, .null])])]
        [⟨"/a", by decide⟩, ⟨"/a/b/1", by decide⟩, ⟨"/a/b", by decide⟩, ⟨"/a", by decide⟩] =
      .ok (payload, ds) ∧
    ∃ ps, payload.reveal HashAlgorithm.digest ds =
        .ok ([("a", .object [("b", .array [.bool true, .null])])], ps) ∧
      ps.Pairwise (fun p q => q < p) ∧
      ∀ p, p ∈ ps ↔ p ∈ [(⟨"/a", by decide⟩ : Pointer), ⟨"/a/b/1", by decide⟩,
        ⟨"/a/b", by decide⟩, ⟨"/a", by decide⟩] := by
  have hsorted : Value.Sorted (.object [("a", .object [("b", .array [.bool true, .null])])]) := by
    simp [Value.Sorted, Value.SortedMembers, Value.SortedItems, Members.Ascending]
  have hok : (conceal HashAlgorithm.digest ⟨.sha256, 1, fun n => [UInt8.ofNat n]⟩
      [("a", .object [("b", .array [.bool true, .null])])]
      [⟨"/a", by decide⟩, ⟨"/a/b/1", by decide⟩, ⟨"/a/b", by decide⟩,
        ⟨"/a", by decide⟩]).isOk = true := by decide +kernel
  obtain ⟨⟨payload, ds⟩, hc⟩ := exists_ok hok
  exact ⟨payload, ds, hc, reveal_conceal _ _ _ _ _ _ hsorted hc⟩

end Payload

end SelectiveDisclosure
