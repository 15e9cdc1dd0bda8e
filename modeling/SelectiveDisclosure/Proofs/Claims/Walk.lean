import SelectiveDisclosure.Proofs.Claims.Opening

/-!
# Walks and openings

A walk succeeds exactly on the values that open to a tree of which no digest was met before: it
gives the value of the tree, meets the digests of the tree and places what they disclose. The number
of steps into disclosures that a walk may take is then never the reason why it stops.
-/

set_option autoImplicit false

namespace SelectiveDisclosure.Reveal

open Json Opening

/-! ## Progress of a walk -/

/-- From one walk to the next the given digests are met and the given places are found. -/
structure Walk.Advances (w w' : Walk) (digests : List String)
    (places : List (String × Pointer)) : Prop where
  met : w'.met.Perm (digests ++ w.met)
  placed : w'.placed.Perm (places ++ w.placed)

namespace Walk.Advances
variable {w w₁ w₂ : Walk} {ds ds' : List String} {ps ps' : List (String × Pointer)}

theorem refl (w : Walk) : w.Advances w [] [] :=
  ⟨List.Perm.refl _, List.Perm.refl _⟩

theorem trans (h : w.Advances w₁ ds ps) (h' : w₁.Advances w₂ ds' ps') :
    w.Advances w₂ (ds ++ ds') (ps ++ ps') := by
  have hperm {α : Type} {a b c as bs : List α} (hb : b.Perm (as ++ a)) (hc : c.Perm (bs ++ b)) :
      c.Perm (as ++ bs ++ a) := by
    refine hc.trans ((hb.append_left bs).trans ?_)
    rw [← List.append_assoc]
    exact List.perm_append_comm.append_right a
  exact ⟨hperm h.met h'.met, hperm h.placed h'.placed⟩

theorem congr (h : w.Advances w₁ ds ps) (hd : ds.Perm ds') (hp : ps.Perm ps') :
    w.Advances w₁ ds' ps' :=
  ⟨h.met.trans (hd.append_right _), h.placed.trans (hp.append_right _)⟩

theorem nodup (h : w.Advances w₁ ds ps) (hn : (ds ++ ds' ++ w.met).Nodup) :
    (ds' ++ w₁.met).Nodup := by
  refine ((h.met.append_left ds').trans ?_).nodup_iff.2 hn
  rw [← List.append_assoc]
  exact List.perm_append_comm.append_right _

theorem of_met (h : w₁.met = ds ++ w.met) (hp : w₁.placed = ps ++ w.placed) :
    w.Advances w₁ ds ps :=
  ⟨by rw [h], by rw [hp]⟩

theorem place (w : Walk) (g : String) (p : Pointer) :
    w.Advances (Walk.place { w with met := g :: w.met } g p) [g] [(g, p)] :=
  .of_met rfl rfl

theorem of_start (h : Walk.start.Advances w ds ps) : w.met.Perm ds ∧ w.placed.Perm ps := by
  have hmet := h.met
  have hplaced := h.placed
  rw [show Walk.start.met = [] from rfl, List.append_nil] at hmet
  rw [show Walk.start.placed = [] from rfl, List.append_nil] at hplaced
  exact ⟨hmet, hplaced⟩

section Parts
variable {place : Pointer} {o : Opening} {i : Nat} {cells : List (Cell Opening)}

theorem clear (h : w.Advances w₁ o.digests (placesAt (place.pushIndex i) o.paths))
    (h' : w₁.Advances w₂ (cellDigests cells) (placesAt place (cellPaths (i + 1) cells))) :
    w.Advances w₂ (cellDigests (.clear o :: cells))
      (placesAt place (cellPaths i (.clear o :: cells))) := by
  rw [cellDigests, cellPaths, placesAt_append, placesAt_under, ← Pointer.pushIndex_eq]
  exact h.trans h'

theorem disclosed {w₀ : Walk} {g : String} (h₀ : w.Advances w₀ [g] [(g, place.pushIndex i)])
    (h : w₀.Advances w₁ o.digests (placesAt (place.pushIndex i) o.paths))
    (h' : w₁.Advances w₂ (cellDigests cells) (placesAt place (cellPaths (i + 1) cells))) :
    w.Advances w₂ (cellDigests (.disclosed g o :: cells))
      (placesAt place (cellPaths i (.disclosed g o :: cells))) := by
  have hpaths : placesAt place (cellPaths i (.disclosed g o :: cells)) =
      [(g, place.pushIndex i)] ++ placesAt (place.pushIndex i) o.paths ++
        placesAt place (cellPaths (i + 1) cells) := by
    rw [cellPaths, placesAt_append]
    exact congrArg (_ :: · ++ _) (placesAt_under place _ _)
  rw [cellDigests, hpaths]
  exact (h₀.trans h).trans h'

theorem member {name : String} {mark : Option String}
    {members : List (String × Option String × Opening)}
    (h : w.Advances w₁ o.digests (placesAt (place.push name) o.paths))
    (h' : w₁.Advances w₂ (memberDigests members) (placesAt place (memberPaths members))) :
    w.Advances w₂ (memberDigests ((name, mark, o) :: members))
      (placesAt place (memberPaths ((name, mark, o) :: members))) := by
  rw [memberDigests, memberPaths, placesAt_append, placesAt_under]
  exact h.trans h'

end Parts

end Walk.Advances

/-! ## Tables -/

namespace Table
variable {t : Table} {w w' : Walk} {g : String}

def Discloses (t : Table) (digest : String) (c : Concealed) : Prop :=
  t.find? digest = some c

def Withholds (t : Table) (digest : String) : Prop :=
  t.find? digest = none

theorem meet_eq_ok_iff :
    t.meet g w = .ok w' ↔
      t.algorithm.isSome = true ∧ g ∉ w.met ∧ w' = { w with met := g :: w.met } := by
  unfold meet
  cases ha : t.algorithm with
  | none => simp
  | some a =>
    by_cases hm : g ∈ w.met
    · simp [hm]
    · simp [hm, eq_comm]

theorem meet_of_nodup {ds : List String} (halg : t.algorithm.isSome = true)
    (hn : (g :: ds ++ w.met).Nodup) : t.meet g w = .ok { w with met := g :: w.met } := by
  refine meet_eq_ok_iff.2 ⟨halg, fun hm => ?_, rfl⟩
  exact (List.nodup_cons.1 hn).1 (List.mem_append_right _ hm)

end Table

def foundBy (find? : String → Option Concealed) (ds : List String) :
    List (String × Option String × Value) :=
  ds.filterMap fun g =>
    match find? g with
    | some (.member name v) => some (name, some g, v)
    | _ => none

def plain (slots : List (String × Option String × Value)) : List (String × Value) :=
  slots.map fun s => (s.1, s.2.2)

theorem findMembers_of_foundBy (t : Table) (place : Pointer) (ds : List String)
    (acc : List (String × Value)) (w : Walk)
    (hfind : ∀ g ∈ ds, t.Withholds g ∨ ∃ name v, t.Discloses g (.member name v))
    (hnames : (Members.names acc ++ Members.names (foundBy t.find? ds)).Nodup)
    (hmet : (ds ++ w.met).Nodup) (halg : ∀ g ∈ ds, t.algorithm.isSome = true) :
    ∃ w', t.findMembers place acc (ds.map .string) w =
        .ok (acc ++ plain (foundBy t.find? ds), w') ∧
      w.Advances w' ds (placesAt place (markPaths (foundBy t.find? ds))) := by
  induction ds generalizing acc w with
  | nil => exact ⟨w, by simp [Table.findMembers, foundBy, plain], Walk.Advances.refl w⟩
  | cons g ds ih =>
    have hmeet := Table.meet_of_nodup (halg g (by simp)) hmet
    have hrest : (ds ++ g :: w.met).Nodup := List.perm_middle.nodup_iff.2 hmet
    have hfind' : ∀ g ∈ ds, t.Withholds g ∨ ∃ name v, t.Discloses g (.member name v) :=
      fun g hg => hfind g (by simp [hg])
    have halg' : ∀ g ∈ ds, t.algorithm.isSome = true := fun g hg => halg g (by simp [hg])
    rw [List.map_cons, Table.findMembers, hmeet]
    simp only [bind, Except.bind]
    rcases hfind g (by simp) with hnone | ⟨name, v, hsome⟩
    · rw [Table.Withholds] at hnone
      have hfound : foundBy t.find? (g :: ds) = foundBy t.find? ds := by simp [foundBy, hnone]
      rw [hfound] at hnames ⊢
      rw [hnone]
      obtain ⟨w', hw, hadv⟩ := ih acc { w with met := g :: w.met } hfind' hnames hrest halg'
      have hstep : w.Advances { w with met := g :: w.met } [g] [] := .of_met rfl rfl
      exact ⟨w', hw, hstep.trans hadv⟩
    · rw [Table.Discloses] at hsome
      have hfound : foundBy t.find? (g :: ds) = (name, some g, v) :: foundBy t.find? ds := by
        simp [foundBy, hsome]
      rw [hfound] at hnames ⊢
      rw [hsome]
      have hnew : name ∉ Members.names acc := by
        intro hm
        exact (List.nodup_append.1 hnames).2.2 name hm name (by simp [Members.names]) rfl
      have hnames' : (Members.names (acc ++ [(name, v)]) ++
          Members.names (foundBy t.find? ds)).Nodup := by
        simpa [Members.names] using hnames
      simp only [hnew, if_false]
      obtain ⟨w', hw, hadv⟩ := ih (acc ++ [(name, v)])
        (Walk.place { w with met := g :: w.met } g (place.push name)) hfind' hnames' hrest halg'
      exact ⟨w', by simpa [plain] using hw, (Walk.Advances.place w g _).trans hadv⟩

/-! ## Inserting disclosed members -/

theorem insertMembers_eq_ok_iff {α : Type} {as bs cs : List (String × α)}
    (h : Members.Ascending as) :
    insertMembers as bs = .ok cs ↔ Members.Ascending cs ∧ cs.Perm (as ++ bs) := by
  induction bs generalizing as with
  | nil =>
    simp only [insertMembers, Except.ok.injEq, List.append_nil]
    exact ⟨by rintro rfl; exact ⟨h, List.Perm.refl _⟩,
      fun ⟨hc, hp⟩ => (Members.eq_of_perm hc h hp).symm⟩
  | cons m r ih =>
    obtain ⟨name, a⟩ := m
    rw [insertMembers]
    by_cases hn : name ∈ Members.names as
    · simp only [hn, if_true, reduceCtorEq, false_iff]
      rintro ⟨hc, hp⟩
      have hnodup := (hp.map Prod.fst).nodup_iff.1 (Members.nodup_names hc)
      rw [List.map_append, List.nodup_append] at hnodup
      exact hnodup.2.2 name hn name (by simp) rfl
    · simp only [hn, if_false]
      rw [ih (Members.ascending_insert h)]
      have hp : (Members.insert name a as ++ r).Perm (as ++ (name, a) :: r) :=
        ((Members.perm_insert hn).append_right r).trans List.perm_middle.symm
      exact ⟨fun ⟨hc, hc'⟩ => ⟨hc, hc'.trans hp⟩, fun ⟨hc, hc'⟩ => ⟨hc, hc'.trans hp.symm⟩⟩

theorem perm_of_insertMembers {α : Type} {as bs cs : List (String × α)}
    (h : insertMembers as bs = .ok cs) : cs.Perm (as ++ bs) := by
  induction bs generalizing as with
  | nil =>
    cases h
    rw [List.append_nil]
  | cons m r ih =>
    obtain ⟨name, a⟩ := m
    rw [insertMembers] at h
    split at h
    · cases h
    · next hn =>
      exact (ih h).trans (((Members.perm_insert hn).append_right r).trans List.perm_middle.symm)

theorem insertMembers_map {α β : Type} (f : α → β) (as bs : List (String × α)) :
    insertMembers (as.map fun m => (m.1, f m.2)) (bs.map fun m => (m.1, f m.2)) =
      (insertMembers as bs).map fun cs => cs.map fun m => (m.1, f m.2) := by
  induction bs generalizing as with
  | nil => rfl
  | cons m r ih =>
    obtain ⟨name, a⟩ := m
    rw [List.map_cons, insertMembers, insertMembers, Members.names_map]
    by_cases hn : name ∈ Members.names as
    · simp [hn, Except.map]
    · simp only [hn, if_false]
      rw [Members.insert_map, ih]

/-! ## Digests of an object -/

theorem disclosedMembers_of_digestTexts? (t : Table) (place : Pointer) {ms : Members}
    {ds : List String} (h : digestTexts? ms = some ds) (w : Walk) :
    t.disclosedMembers place (Members.get? ms Digests.membersName) w =
      t.findMembers place [] (ds.map .string) w := by
  rcases digestTexts?_eq_some_iff.1 h with ⟨hg, rfl⟩ | hg
  · simp [hg, Table.disclosedMembers, Table.findMembers]
  · simp [hg, Table.disclosedMembers]

theorem foundBy_perm (find? : String → Option Concealed) {ds ds' : List String}
    (h : ds.Perm ds') : (foundBy find? ds).Perm (foundBy find? ds') :=
  h.filterMap _

theorem foundBy_marksOf {t : Table} {slots : List (String × Option String × Value)}
    (h : ∀ s ∈ slots, ∀ g, s.2.1 = some g → t.Discloses g (.member s.1 s.2.2)) :
    foundBy t.find? (marksOf slots) = markedOf slots := by
  induction slots with
  | nil => rfl
  | cons s r ih =>
    obtain ⟨k, mark, v⟩ := s
    have hr := ih fun s hs => h s (by simp [hs])
    cases mark with
    | none => exact hr
    | some g =>
      have hg : t.find? g = some (.member k v) := h (k, some g, v) (by simp) g rfl
      simp only [foundBy, marksOf_cons_some, List.filterMap_cons, hg] at hr ⊢
      rw [hr]
      rfl

theorem foundBy_withheld {t : Table} {ds : List String} (h : ∀ g ∈ ds, t.Withholds g) :
    foundBy t.find? ds = [] := by
  rw [foundBy, List.filterMap_eq_nil_iff]
  intro g hg
  rw [show t.find? g = none from h g hg]

theorem memberVisits_eq_map (t : Table) (below : Value → Visit) (ms : List (String × Value)) :
    memberVisits t below ms = ms.map fun m => (m.1, m.2, visit t below m.2) := by
  induction ms with
  | nil => rfl
  | cons m r ih => simp [memberVisits, ih]

theorem get?_memberVisits (t : Table) (below : Value → Visit) (ms : Members) (name : String) :
    (Members.get? (memberVisits t below ms) name).map Prod.fst = Members.get? ms name := by
  rw [memberVisits_eq_map, Members.get?_map fun v => (v, visit t below v)]
  cases Members.get? ms name <;> rfl

theorem itemVisits_eq_map (t : Table) (below : Value → Visit) (items : List Value) :
    itemVisits t below items = items.map fun v => (v, visit t below v) := by
  induction items with
  | nil => rfl
  | cons v r ih => simp [itemVisits, ih]

theorem ownMembers_memberVisits (t : Table) (below : Value → Visit) (ms : Members) :
    ownMembers (memberVisits t below ms) = (own ms).map fun m => (m.1, visit t below m.2) := by
  have he := Members.erase_map (fun v => (v, visit t below v))
  rw [ownMembers, memberVisits_eq_map, he, he]
  simp [own]

/-- How a walk goes on with a member: a disclosed one lies one step deeper. -/
def visitSlot (t : Table) (below : Value → Visit) (s : Option String × Value) : Visit :=
  match s.1 with
  | none => visit t below s.2
  | some _ => below s.2

def slotsOf (ms : Members) (found : List (String × Option String × Value)) :
    Except RevealError (List (String × Option String × Value)) :=
  insertMembers ((own ms).map fun m => (m.1, none, m.2)) found

theorem insertMembers_visits (t : Table) (below : Value → Visit) (ms : Members)
    {found : List (String × Option String × Value)} (hf : ∀ s ∈ found, s.2.1.isSome = true) :
    insertMembers (ownMembers (memberVisits t below ms))
        ((plain found).map fun m => (m.1, below m.2)) =
      (slotsOf ms found).map fun slots => slots.map fun s => (s.1, visitSlot t below s.2) := by
  rw [slotsOf, ← insertMembers_map, ownMembers_memberVisits, List.map_map]
  congr 1
  rw [plain, List.map_map]
  apply List.map_congr_left
  intro s hs
  obtain ⟨g, hg⟩ := Option.isSome_iff_exists.1 (hf s hs)
  simp [visitSlot, hg]

theorem isSome_of_mem_foundBy {find? : String → Option Concealed} {ds : List String} :
    ∀ s ∈ foundBy find? ds, s.2.1.isSome = true := by
  intro s hs
  obtain ⟨g, -, hg⟩ := List.mem_filterMap.1 hs
  split at hg
  · simp only [Option.some.injEq] at hg
    rw [← hg]
    rfl
  · simp at hg

theorem visitObject_of_slots (t : Table) (below : Value → Visit) {ms : Members}
    {ds withheld : List String} {slots : List (String × Option String × Value)}
    (htexts : digestTexts? ms = some ds) (hclear : clearOf slots = own ms)
    (hasc : Members.Ascending slots) (hperm : ds.Perm (marksOf slots ++ withheld))
    (hwith : ∀ g ∈ withheld, t.Withholds g)
    (hdisc : ∀ s ∈ slots, ∀ g, s.2.1 = some g → t.Discloses g (.member s.1 s.2.2))
    (place : Pointer) (w : Walk) (hmet : (marksOf slots ++ withheld ++ w.met).Nodup)
    (halg : ∀ g ∈ marksOf slots ++ withheld, t.algorithm.isSome = true) :
    ∃ w', visitObject t below (memberVisits t below ms) place w =
        visitMembers place (slots.map fun s => (s.1, visitSlot t below s.2)) w' ∧
      w.Advances w' (marksOf slots ++ withheld) (placesAt place (markPaths slots)) := by
  have hfound : (foundBy t.find? ds).Perm (markedOf slots) := by
    apply (foundBy_perm t.find? hperm).trans
    rw [show foundBy t.find? (marksOf slots ++ withheld) =
      foundBy t.find? (marksOf slots) ++ foundBy t.find? withheld from List.filterMap_append,
      foundBy_marksOf hdisc, foundBy_withheld hwith, List.append_nil]
  have hslots : slotsOf ms (foundBy t.find? ds) = .ok slots := by
    have hown := ascending_clearOf hasc
    rw [hclear] at hown
    have hclear' : Members.Ascending ((own ms).map fun m => (m.1, (none : Option String), m.2)) :=
      (ascending_iff_of_names (Members.names_map _ _)).2 hown
    refine (insertMembers_eq_ok_iff hclear').2 ⟨hasc, ?_⟩
    apply (perm_clearOf_markedOf slots).trans
    rw [hclear]
    exact hfound.symm.append_left _
  have hnames : (Members.names (foundBy t.find? ds)).Nodup := by
    apply (hfound.map Prod.fst).nodup_iff.2
    exact (Members.nodup_names hasc).sublist (List.filter_sublist.map Prod.fst)
  have hmember : ∀ g ∈ ds, t.Withholds g ∨ ∃ name v, t.Discloses g (.member name v) := by
    intro g hg
    rcases List.mem_append.1 (hperm.mem_iff.1 hg) with hm | hm
    · obtain ⟨s, hs, hsg⟩ := List.mem_filterMap.1 hm
      exact .inr ⟨_, _, hdisc s hs g hsg⟩
    · exact .inl (hwith g hm)
  obtain ⟨w', hw, hadv⟩ := findMembers_of_foundBy t place ds [] w hmember
    (by simpa [Members.names] using hnames)
    ((hperm.append_right _).nodup_iff.2 hmet) fun g hg => halg g (hperm.mem_iff.1 hg)
  refine ⟨w', ?_, hadv.congr hperm ?_⟩
  · rw [List.nil_append] at hw
    simp only [visitObject, get?_memberVisits, disclosedMembers_of_digestTexts? t place htexts w, hw,
      bind, Except.bind, insertMembers_visits t below ms isSome_of_mem_foundBy, hslots, Except.map]
  · apply List.Perm.map _
    rw [← markPaths_markedOf slots]
    exact hfound.filterMap _

/-! ## Trees are walked through -/

theorem visit_of_isScalar (t : Table) (below : Value → Visit) {v : Value} (h : IsScalar v)
    (place : Pointer) (w : Walk) : visit t below v place w = .ok (v, w) := by
  cases v <;> first | rfl | exact absurd h id

mutual

theorem visit_of_opens (t : Table) (o : Opening) {v : Value}
    (h : Opens t.Discloses t.Withholds o v) {k : Nat} (hk : o.paths.length ≤ k) (place : Pointer)
    (w : Walk) (hn : (o.digests ++ w.met).Nodup)
    (halg : ∀ g ∈ o.digests, t.algorithm.isSome = true) :
    ∃ w', visit t (visitBelow t k) v place w = .ok (o.value, w') ∧
      w.Advances w' o.digests (placesAt place o.paths) := by
  cases o with
  | leaf u =>
    obtain ⟨rfl, hs⟩ := h
    exact ⟨w, visit_of_isScalar t _ hs place w, Walk.Advances.refl w⟩
  | array cells =>
    obtain ⟨items, rfl, hitems⟩ := h
    rw [paths] at hk
    obtain ⟨w', hw, hadv⟩ := visitItems_of_opens t cells hitems 0 hk place w hn halg
    refine ⟨w', ?_, hadv⟩
    simp only [visit, hw, bind, Except.bind]
    rfl
  | object withheld members =>
    obtain ⟨ms, ds, slots, rfl, htexts, hclear, hasc, hperm, hwith, hmembers⟩ := h
    obtain ⟨hmarks, hmarkPaths⟩ := marksOf_of_opensMembers hmembers
    rw [digests] at hn halg
    rw [paths, List.length_append] at hk
    have hhead : (marksOf slots ++ withheld ++ w.met).Nodup := by
      rw [hmarks]
      exact hn.sublist ((List.sublist_append_left _ _).append (List.Sublist.refl _))
    obtain ⟨w₁, hw₁, hadv₁⟩ := visitObject_of_slots t (visitBelow t k) htexts hclear hasc hperm
      hwith (disclosed_of_opensMembers hmembers) place w hhead
      (fun g hg => halg g (List.mem_append_left _ (hmarks ▸ hg)))
    rw [hmarks, hmarkPaths] at hadv₁
    obtain ⟨w₂, hw₂, hadv₂⟩ := visitMembers_of_opens t members hmembers hk place w₁
      (hadv₁.nodup hn) fun g hg => halg g (List.mem_append_right _ hg)
    refine ⟨w₂, ?_, ?_⟩
    · simp only [visit, hw₁, hw₂, bind, Except.bind]
      rfl
    · rw [digests, paths, placesAt_append]
      exact hadv₁.trans hadv₂

theorem visitItems_of_opens (t : Table) (cells : List (Cell Opening)) {items : List Value}
    (h : OpensItems t.Discloses t.Withholds cells items) {k : Nat} (i : Nat)
    (hk : (cellPaths i cells).length ≤ k) (place : Pointer) (w : Walk)
    (hn : (cellDigests cells ++ w.met).Nodup)
    (halg : ∀ g ∈ cellDigests cells, t.algorithm.isSome = true) :
    ∃ w', visitItems t (visitBelow t k) place i (itemVisits t (visitBelow t k) items) w =
        .ok (cellValues cells, w') ∧
      w.Advances w' (cellDigests cells) (placesAt place (cellPaths i cells)) := by
  cases cells with
  | nil =>
    rw [OpensItems] at h
    subst h
    exact ⟨w, rfl, Walk.Advances.refl w⟩
  | cons cell r =>
    cases cell with
    | clear o =>
      obtain ⟨v, rest, rfl, hplace, ho, hr⟩ := h
      rw [cellPaths, List.length_append, List.length_map] at hk
      rw [cellDigests] at hn halg
      obtain ⟨w₁, hw₁, hadv₁⟩ := visit_of_opens t o ho (by omega : o.paths.length ≤ k)
        (place.pushIndex i) w (hn.sublist ((List.sublist_append_left _ _).append
          (List.Sublist.refl _))) fun g hg => halg g (List.mem_append_left _ hg)
      obtain ⟨w₂, hw₂, hadv₂⟩ := visitItems_of_opens t r hr (k := k) (i + 1) (by omega) place w₁
        (hadv₁.nodup hn) fun g hg => halg g (List.mem_append_right _ hg)
      refine ⟨w₂, ?_, hadv₁.clear hadv₂⟩
      simp only [itemVisits, visitItems, hplace, hw₁, hw₂, bind, Except.bind]
      rfl
    | disclosed g o =>
      obtain ⟨v, rest, rfl, hplace, ⟨u, hu, ho⟩, hr⟩ := h
      rw [cellPaths, List.length_append, List.length_cons, List.length_map] at hk
      rw [cellDigests] at hn halg
      obtain ⟨k, rfl⟩ : ∃ j, k = j + 1 := ⟨k - 1, by omega⟩
      have hmeet := Table.meet_of_nodup (halg g List.mem_cons_self) hn
      have hn₁ : (o.digests ++ cellDigests r ++ g :: w.met).Nodup :=
        List.perm_middle.nodup_iff.2 (by simpa using hn)
      obtain ⟨w₁, hw₁, hadv₁⟩ := visit_of_opens t o ho (by omega : o.paths.length ≤ k)
        (place.pushIndex i) (Walk.place { w with met := g :: w.met } g (place.pushIndex i))
        (hn₁.sublist ((List.sublist_append_left _ _).append (List.Sublist.refl _)))
        fun g hg => halg g (by simp [hg])
      obtain ⟨w₂, hw₂, hadv₂⟩ := visitItems_of_opens t r hr (k := k + 1) (i + 1) (by omega) place
        w₁ (hadv₁.nodup hn₁) fun g hg => halg g (by simp [hg])
      have hbelow : visitBelow t (k + 1) u (place.pushIndex i)
          (Walk.place { w with met := g :: w.met } g (place.pushIndex i)) =
            .ok (o.value, w₁) := hw₁
      refine ⟨w₂, ?_, (Walk.Advances.place w g _).disclosed hadv₁ hadv₂⟩
      simp only [itemVisits, visitItems, hplace, hmeet, bind, Except.bind,
        show t.find? g = some (.item u) from hu, hbelow, hw₂]
      rfl
    | withheld g =>
      obtain ⟨v, rest, rfl, hplace, hg, hr⟩ := h
      rw [cellPaths] at hk
      rw [cellDigests] at hn halg
      have hmeet := Table.meet_of_nodup (halg g List.mem_cons_self) hn
      have hstep : w.Advances { w with met := g :: w.met } [g] [] := .of_met rfl rfl
      obtain ⟨w₁, hw₁, hadv₁⟩ := visitItems_of_opens t r hr i hk place
        { w with met := g :: w.met } (List.perm_middle.nodup_iff.2 hn)
        fun g hg => halg g (by simp [hg])
      refine ⟨w₁, ?_, hstep.trans hadv₁⟩
      simp only [itemVisits, visitItems, hplace, hmeet, bind, Except.bind,
        show t.find? g = none from hg, hw₁]
      rfl

theorem visitMembers_of_opens (t : Table) (members : List (String × Option String × Opening))
    {slots : List (String × Option String × Value)}
    (h : OpensMembers t.Discloses t.Withholds members slots) {k : Nat}
    (hk : (markPaths members).length + (memberPaths members).length ≤ k) (place : Pointer)
    (w : Walk) (hn : (memberDigests members ++ w.met).Nodup)
    (halg : ∀ g ∈ memberDigests members, t.algorithm.isSome = true) :
    ∃ w', visitMembers place (slots.map fun s => (s.1, visitSlot t (visitBelow t k) s.2)) w =
        .ok (memberValues members, w') ∧
      w.Advances w' (memberDigests members) (placesAt place (memberPaths members)) := by
  cases members with
  | nil =>
    rw [OpensMembers] at h
    subst h
    exact ⟨w, rfl, Walk.Advances.refl w⟩
  | cons m r =>
    obtain ⟨name, mark, o⟩ := m
    obtain ⟨v, rest, rfl, -, ho, hr⟩ := h
    rw [memberPaths, List.length_append, List.length_map] at hk
    rw [memberDigests] at hn halg
    have hn₁ : (o.digests ++ w.met).Nodup :=
      hn.sublist ((List.sublist_append_left _ _).append (List.Sublist.refl _))
    have halg₁ : ∀ g ∈ o.digests, t.algorithm.isSome = true :=
      fun g hg => halg g (List.mem_append_left _ hg)
    have hkr : (markPaths r).length + (memberPaths r).length ≤ k := by
      cases mark <;>
        simp only [markPaths_cons_none, markPaths_cons_some, List.length_cons] at hk <;> omega
    obtain ⟨w₁, hw₁, hadv₁⟩ : ∃ w₁, visitSlot t (visitBelow t k) (mark, v) (place.push name) w =
        .ok (o.value, w₁) ∧ w.Advances w₁ o.digests (placesAt (place.push name) o.paths) := by
      cases mark with
      | none =>
        exact visit_of_opens t o ho (by rw [markPaths_cons_none] at hk; omega) _ w hn₁ halg₁
      | some g =>
        rw [markPaths_cons_some, List.length_cons] at hk
        obtain ⟨j, rfl⟩ : ∃ j, k = j + 1 := ⟨k - 1, by omega⟩
        exact visit_of_opens t o ho (by omega) _ w hn₁ halg₁
    obtain ⟨w₂, hw₂, hadv₂⟩ := visitMembers_of_opens t r hr hkr place w₁ (hadv₁.nodup hn)
      fun g hg => halg g (List.mem_append_right _ hg)
    refine ⟨w₂, ?_, hadv₁.member hadv₂⟩
    simp only [List.map_cons, visitMembers, hw₁, hw₂, bind, Except.bind]
    rfl

end

end SelectiveDisclosure.Reveal
