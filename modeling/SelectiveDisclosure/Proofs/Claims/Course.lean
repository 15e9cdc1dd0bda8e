import SelectiveDisclosure.Proofs.Claims.Revealed

/-!
# The course of a walk

A walk goes on into the values of disclosures, which are no part of the payload. On a tour it
records each disclosure that it expands, and is stopped where it would expand more of them inside
each other than it may. As many as there are disclosures are enough, since the digest of each is met
before it is expanded: the tour then ends by itself, where the walk ends.
-/

set_option autoImplicit false

namespace SelectiveDisclosure

open Json Reveal

/-- The digests of the disclosures that were expanded, and the outcome unless it was stopped. -/
structure Course (α : Type) where
  expanded : List String
  outcome : Option (Except RevealError α)

namespace Course
variable {α β : Type}

def of (x : Except RevealError α) : Course α :=
  ⟨[], some x⟩

def stopped : Course α :=
  ⟨[], none⟩

def expanding (mark : Option String) (c : Course α) : Course α :=
  ⟨mark.toList ++ c.expanded, c.outcome⟩

instance : Monad Course where
  pure a := of (.ok a)
  bind c next :=
    match c.outcome with
    | none => ⟨c.expanded, none⟩
    | some (.error e) => ⟨c.expanded, some (.error e)⟩
    | some (.ok a) => ⟨c.expanded ++ (next a).expanded, (next a).outcome⟩

@[simp]
theorem of_ok_bind (a : α) (next : α → Course β) : of (.ok a) >>= next = next a := rfl

theorem bind_of_ok {c : Course α} {a : α} (h : c.outcome = some (.ok a))
    (next : α → Course β) :
    c >>= next = ⟨c.expanded ++ (next a).expanded, (next a).outcome⟩ := by
  simp only [bind, h]

theorem bind_of_error {c : Course α} {e : RevealError} (h : c.outcome = some (.error e))
    (next : α → Course β) : c >>= next = ⟨c.expanded, some (.error e)⟩ := by
  simp only [bind, h]

theorem bind_of {c : Course α} {x : Except RevealError α} (h : c.outcome = some x)
    (f : α → Except RevealError β) : (c >>= fun a => of (f a)) = ⟨c.expanded, some (x >>= f)⟩ := by
  cases x with
  | error e => exact bind_of_error h _
  | ok a =>
    rw [bind_of_ok h, of, List.append_nil]
    rfl

end Course

namespace Reveal

/-! ## Tours -/

abbrev Tour := Pointer → Walk → Course (Value × Walk)

def tourMembers (place : Pointer) :
    List (String × Option String × Tour) → Walk → Course (List (String × Value) × Walk)
  | [], w => pure ([], w)
  | (name, mark, tour) :: r, w => do
    let (v, w) ← .expanding mark (tour (place.push name) w)
    let (ms, w) ← tourMembers place r w
    return ((name, v) :: ms, w)

def tourObject (t : Table) (below : Value → Tour) (members : List (String × Value × Tour))
    (place : Pointer) (w : Walk) : Course (List (String × Value) × Walk) := do
  let digests := (Members.get? members Digests.membersName).map Prod.fst
  let (_, w) ← .of (t.disclosedMembers place digests w)
  let found := foundBy t.find? (digests.elim [] Digests.textsOf)
  let all ← .of (insertMembers ((own members).map fun m => (m.1, none, m.2.2))
    (found.map fun s => (s.1, s.2.1, below s.2.2)))
  tourMembers place all w

def tourItems (t : Table) (below : Value → Tour) (place : Pointer) :
    Nat → List (Value × Tour) → Walk → Course (List Value × Walk)
  | _, [], w => pure ([], w)
  | i, (item, tour) :: r, w =>
    match Digests.placeholder? item with
    | none => do
      let (v, w) ← tour (place.pushIndex i) w
      let (vs, w) ← tourItems t below place (i + 1) r w
      return (v :: vs, w)
    | some digest => do
      let w ← .of (t.meet digest w)
      match t.find? digest with
      | none => tourItems t below place i r w
      | some (.member _ _) => .of (.error (.expectedItem digest))
      | some (.item value) =>
        let (v, w) ← .expanding (some digest)
          (below value (place.pushIndex i) (w.place digest (place.pushIndex i)))
        let (vs, w) ← tourItems t below place (i + 1) r w
        return (v :: vs, w)

mutual

def tour (t : Table) (below : Value → Tour) : Value → Tour
  | .array items => fun place w => do
    let (vs, w) ← tourItems t below place 0 (itemTours t below items) w
    return (.array vs, w)
  | .object members => fun place w => do
    let (ms, w) ← tourObject t below (memberTours t below members) place w
    return (.object ms, w)
  | v => fun _ w => pure (v, w)

def itemTours (t : Table) (below : Value → Tour) : List Value → List (Value × Tour)
  | [] => []
  | v :: r => (v, tour t below v) :: itemTours t below r

def memberTours (t : Table) (below : Value → Tour) :
    List (String × Value) → List (String × Value × Tour)
  | [] => []
  | (k, v) :: r => (k, v, tour t below v) :: memberTours t below r

end

/-- The tour of a value below so many others, stopped below any more. -/
def tourBelow (t : Table) : Nat → Value → Tour
  | 0, _ => fun _ _ => .stopped
  | k+1, v => tour t (tourBelow t k) v

end Reveal

def Payload.course (f : DigestFunction) (p : Payload) (ds : List Disclosure) (depth : Nat) :
    Course (Members × List Pointer) := do
  let t ← .of (table f p.algorithm ds)
  let below := tourBelow t depth
  let (claims, w) ← tourObject t below (memberTours t below p.claims) .root .start
  .of do
    let ps ← places w t.entries
    return (claims, ps)

namespace Reveal

/-! ## What is recorded -/

/-- A course from a walk to an outcome. It expands no disclosure twice, and only those of the given
digests and of others that it meets. -/
structure Records {α : Type} (t : Table) (marks : List String) (w : Walk)
    (r : Except RevealError (α × Walk)) (c : Course (α × Walk)) : Prop where
  outcome : c.outcome = some r
  nodup : c.expanded.Nodup
  fresh : ∀ g ∈ c.expanded, g ∈ marks ∨ g ∉ w.met
  disclosed : ∀ g ∈ c.expanded, (t.find? g).isSome = true
  met : ∀ a w', r = .ok (a, w') →
    w'.met.Nodup ∧ (∃ ds ps, w.Advances w' ds ps) ∧ ∀ g ∈ c.expanded, g ∈ w'.met

theorem Walk.Advances.subset {w w' : Walk} {ds : List String} {ps : List (String × Pointer)}
    (h : w.Advances w' ds ps) : w.met ⊆ w'.met :=
  fun _ hg => h.met.mem_iff.2 (List.mem_append_right _ hg)

namespace Records
variable {α β : Type} {t : Table} {marks : List String} {w : Walk}
  {r : Except RevealError (α × Walk)} {c : Course (α × Walk)}

theorem of_error (e : RevealError) :
    Records t marks w (.error e) (.of (.error e) : Course (α × Walk)) :=
  ⟨rfl, List.Pairwise.nil, List.forall_mem_nil _, List.forall_mem_nil _, fun _ _ h => by cases h⟩

theorem of_ok (a : α) (hw : w.met.Nodup) : Records t marks w (.ok (a, w)) (pure (a, w)) := by
  refine ⟨rfl, List.Pairwise.nil, List.forall_mem_nil _, List.forall_mem_nil _, fun a' w' h => ?_⟩
  cases h
  exact ⟨hw, ⟨[], [], .refl w⟩, List.forall_mem_nil _⟩

theorem bind {marks' : List String} (hc : Records t marks w r c)
    (hnew : ∀ g ∈ marks', g ∉ marks) (hmet : ∀ g ∈ marks', g ∈ w.met)
    {f : α × Walk → Except RevealError (β × Walk)} {next : α × Walk → Course (β × Walk)}
    (hnext : ∀ a w', r = .ok (a, w') → Records t marks' w' (f (a, w')) (next (a, w'))) :
    Records t (marks ++ marks') w (r >>= f) (c >>= next) := by
  cases r with
  | error e =>
    rw [Course.bind_of_error hc.outcome]
    exact ⟨rfl, hc.nodup, fun g hg => (hc.fresh g hg).imp_left (List.mem_append_left _),
      hc.disclosed, fun _ _ h => by cases h⟩
  | ok a =>
    obtain ⟨a, w₁⟩ := a
    obtain ⟨hw₁, ⟨ds, ps, hadv⟩, hexp⟩ := hc.met a w₁ rfl
    have hn := hnext a w₁ rfl
    rw [Course.bind_of_ok hc.outcome]
    refine ⟨hn.outcome, ?_, ?_, ?_, ?_⟩
    · refine List.nodup_append.2 ⟨hc.nodup, hn.nodup, ?_⟩
      rintro g hg _ hg' rfl
      rcases hn.fresh g hg' with hm | hm
      · exact (hc.fresh g hg).elim (hnew g hm) fun h => h (hmet g hm)
      · exact hm (hexp g hg)
    · intro g hg
      rcases List.mem_append.1 hg with hg | hg
      · exact (hc.fresh g hg).imp_left (List.mem_append_left _)
      · exact (hn.fresh g hg).imp (List.mem_append_right _) fun h hw => h (hadv.subset hw)
    · intro g hg
      exact (List.mem_append.1 hg).elim (hc.disclosed g) (hn.disclosed g)
    · intro b w₂ hb
      obtain ⟨hw₂, ⟨ds', ps', hadv'⟩, hexp'⟩ := hn.met b w₂ hb
      refine ⟨hw₂, ⟨_, _, hadv.trans hadv'⟩, fun g hg => ?_⟩
      exact (List.mem_append.1 hg).elim (fun h => hadv'.subset (hexp g h)) (hexp' g)

theorem followed (hc : Records t marks w r c) {f : α × Walk → Except RevealError (β × Walk)}
    {next : α × Walk → Course (β × Walk)}
    (hnext : ∀ a w', r = .ok (a, w') → w'.met.Nodup → w.spent t ≤ w'.spent t →
      Records t [] w' (f (a, w')) (next (a, w'))) :
    Records t marks w (r >>= f) (c >>= next) := by
  rw [← List.append_nil marks]
  refine hc.bind (by simp) (by simp) fun a w' h => ?_
  obtain ⟨hw', ⟨ds, ps, hadv⟩, -⟩ := hc.met a w' h
  exact hnext a w' h hw' hadv.spent_le

theorem after {w₁ : Walk} (hc : Records t marks w₁ r c) {ds : List String}
    {ps : List (String × Pointer)} (hadv : w.Advances w₁ ds ps) (hnew : ∀ g ∈ marks, g ∉ w.met) :
    Records t [] w r c := by
  refine ⟨hc.outcome, hc.nodup, fun g hg => .inr ?_, hc.disclosed, fun a w' h => ?_⟩
  · exact (hc.fresh g hg).elim (hnew g) fun hg hw => hg (hadv.subset hw)
  · obtain ⟨hw', ⟨ds', ps', hadv'⟩, hexp⟩ := hc.met a w' h
    exact ⟨hw', ⟨_, _, hadv.trans hadv'⟩, hexp⟩

theorem expanding {mark : Option String} (hc : Records t [] w r c)
    (hmark : ∀ g, mark = some g → g ∈ w.met ∧ (t.find? g).isSome = true) :
    Records t mark.toList w r (c.expanding mark) := by
  have hfresh : ∀ g ∈ c.expanded, g ∉ w.met := fun g hg =>
    (hc.fresh g hg).resolve_left List.not_mem_nil
  cases mark with
  | none => exact hc
  | some g =>
    obtain ⟨hg, hdisc⟩ := hmark g rfl
    refine ⟨hc.outcome, List.nodup_cons.2 ⟨fun h => hfresh g h hg, hc.nodup⟩, ?_, ?_, ?_⟩
    · exact List.forall_mem_cons.2 ⟨.inl List.mem_cons_self, fun g hg => .inr (hfresh g hg)⟩
    · exact List.forall_mem_cons.2 ⟨hdisc, hc.disclosed⟩
    · intro a w' h
      obtain ⟨hw', ⟨ds, ps, hadv⟩, hexp⟩ := hc.met a w' h
      exact ⟨hw', ⟨ds, ps, hadv⟩, List.forall_mem_cons.2 ⟨hadv.subset hg, hexp⟩⟩

end Records

/-- On walks that have met at least so many disclosures, the tour goes the way of the visit. -/
def Accompanies (t : Table) (n : Nat) (visit : Visit) (tour : Tour) : Prop :=
  ∀ place w, w.met.Nodup → n ≤ w.spent t → Records t [] w (visit place w) (tour place w)

theorem Accompanies.mono {t : Table} {n m : Nat} {visit : Visit} {tour : Tour}
    (h : Accompanies t n visit tour) (hnm : n ≤ m) : Accompanies t m visit tour :=
  fun place w hw hm => h place w hw (Nat.le_trans hnm hm)

/-! ## Members and items -/

theorem memberTours_eq_map (t : Table) (below : Value → Tour) (ms : List (String × Value)) :
    memberTours t below ms = ms.map fun m => (m.1, m.2, tour t below m.2) := by
  induction ms with
  | nil => rfl
  | cons m r ih => simp [memberTours, ih]

theorem itemTours_eq_map (t : Table) (below : Value → Tour) (items : List Value) :
    itemTours t below items = items.map fun v => (v, tour t below v) := by
  induction items with
  | nil => rfl
  | cons v r ih => simp [itemTours, ih]

def tourSlot (t : Table) (below : Value → Tour) (s : Option String × Value) : Tour :=
  match s.1 with
  | none => tour t below s.2
  | some _ => below s.2

theorem insertMembers_tours (t : Table) (below : Value → Tour) (ms : Members)
    {found : List (String × Option String × Value)} (hf : ∀ s ∈ found, s.2.1.isSome = true) :
    insertMembers ((own (memberTours t below ms)).map fun m => (m.1, none, m.2.2))
        (found.map fun s => (s.1, s.2.1, below s.2.2)) =
      (slotsOf ms found).map fun slots =>
        slots.map fun s => (s.1, s.2.1, tourSlot t below s.2) := by
  have he := Members.erase_map (fun v => (v, tour t below v))
  have hown : (own (memberTours t below ms)).map (fun m => (m.1, (none : Option String), m.2.2)) =
      ((own ms).map fun m => (m.1, (none : Option String), m.2)).map fun m =>
        (m.1, m.2.1, tourSlot t below m.2) := by
    rw [own, memberTours_eq_map, he, he, List.map_map, List.map_map]
    rfl
  have hfound : found.map (fun s => (s.1, s.2.1, below s.2.2)) =
      found.map fun s => (s.1, s.2.1, tourSlot t below s.2) := by
    apply List.map_congr_left
    intro s hs
    obtain ⟨g, hg⟩ := Option.isSome_iff_exists.1 (hf s hs)
    simp [tourSlot, hg]
  rw [slotsOf, hown, hfound, insertMembers_map fun s => (s.1, tourSlot t below s)]

theorem get?_memberTours (t : Table) (below : Value → Tour) (ms : Members) (name : String) :
    (Members.get? (memberTours t below ms) name).map Prod.fst = Members.get? ms name := by
  rw [memberTours_eq_map, Members.get?_map fun v => (v, tour t below v)]
  cases Members.get? ms name <;> rfl

theorem textsOf_of_digestTexts? {ms : Members} {ds : List String}
    (h : digestTexts? ms = some ds) :
    (Members.get? ms Digests.membersName).elim [] Digests.textsOf = ds := by
  rcases digestTexts?_eq_some_iff.1 h with ⟨hget, rfl⟩ | hget
  · rw [hget]
    rfl
  · rw [hget]
    exact Digests.textsOf_strings ds

theorem Found.nodup_marksOf {t : Table} {place : Pointer} {ms : Members} {ds : List String}
    {w w' : Walk} {slots : List (String × Option String × Value)} (hf : Found t place ds w w')
    (h : slotsOf ms (foundBy t.find? ds) = .ok slots) (hw : w.met.Nodup) :
    (marksOf slots).Nodup ∧
      ∀ g ∈ marksOf slots, g ∉ w.met ∧ g ∈ w'.met ∧ (t.find? g).isSome = true := by
  have hmarks := (marks_of_slotsOf h).1
  have hds := perm_marksOf_foundBy hf.known
  have hnew : (ds ++ w.met).Nodup := hf.advances.met.nodup_iff.1 (hf.nodup hw)
  obtain ⟨hdistinct, -, hdisj⟩ := List.nodup_append.1 hnew
  refine ⟨hmarks.nodup_iff.2 (List.nodup_append.1 (hds.nodup_iff.1 hdistinct)).1, ?_⟩
  intro g hg
  have hg := hmarks.mem_iff.1 hg
  have hin : g ∈ ds := hds.mem_iff.2 (List.mem_append_left _ hg)
  refine ⟨fun hgw => hdisj g hin g hgw rfl, hf.advances.met.mem_iff.2 ?_, ?_⟩
  · exact List.mem_append_left _ hin
  · obtain ⟨s, hs, hsg⟩ := List.mem_filterMap.1 hg
    obtain ⟨g', hg', hd⟩ := discloses_of_mem_foundBy hs
    rw [hsg] at hg'
    cases hg'
    exact Option.isSome_of_eq_some hd

section Step
variable {t : Table} {n : Nat}

theorem records_visitMembers {slots : List (String × Option String × Value)}
    {visits : Option String × Value → Visit} {tours : Option String × Value → Tour}
    (hslots : ∀ s ∈ slots, Accompanies t n (visits s.2) (tours s.2))
    (hdisc : ∀ g ∈ marksOf slots, (t.find? g).isSome = true) (hmarks : (marksOf slots).Nodup)
    (place : Pointer) {w : Walk} (hw : w.met.Nodup) (hn : n ≤ w.spent t)
    (hmet : ∀ g ∈ marksOf slots, g ∈ w.met) :
    Records t (marksOf slots) w (visitMembers place (slots.map fun s => (s.1, visits s.2)) w)
      (tourMembers place (slots.map fun s => (s.1, s.2.1, tours s.2)) w) := by
  induction slots generalizing w with
  | nil => exact .of_ok [] hw
  | cons s r ih =>
    obtain ⟨k, mark, v⟩ := s
    have hcons : marksOf ((k, mark, v) :: r) = mark.toList ++ marksOf r := by
      cases mark <;> rfl
    rw [hcons] at hdisc hmarks hmet ⊢
    obtain ⟨-, hr, hdisj⟩ := List.nodup_append.1 hmarks
    have hmark : ∀ g, mark = some g → g ∈ w.met ∧ (t.find? g).isSome = true := by
      rintro g rfl
      exact ⟨hmet g (by simp), hdisc g (by simp)⟩
    have hhead := (hslots _ List.mem_cons_self (place.push k) w hw hn).expanding hmark
    refine hhead.bind (fun g hg hg' => hdisj g hg' g hg rfl)
      (fun g hg => hmet g (List.mem_append_right _ hg)) fun u w₁ hu => ?_
    obtain ⟨hw₁, ⟨ds, ps, hadv⟩, -⟩ := hhead.met u w₁ hu
    have htail := ih (fun s hs => hslots s (List.mem_cons_of_mem _ hs))
      (fun g hg => hdisc g (List.mem_append_right _ hg)) hr hw₁ (Nat.le_trans hn hadv.spent_le)
      (fun g hg => hadv.subset (hmet g (List.mem_append_right _ hg)))
    exact htail.followed fun us w₂ _ hw₂ _ => .of_ok _ hw₂

theorem records_visitItems {below : Value → Visit} {deeper : Value → Tour}
    {visits : Value → Visit} {tours : Value → Tour} {items : List Value}
    (hbelow : ∀ g u, t.Discloses g (.item u) → Accompanies t (n + 1) (below u) (deeper u))
    (hitems : ∀ v ∈ items, Accompanies t n (visits v) (tours v)) (place : Pointer) (i : Nat)
    {w : Walk} (hw : w.met.Nodup) (hn : n ≤ w.spent t) :
    Records t [] w (visitItems t below place i (items.map fun v => (v, visits v)) w)
      (tourItems t deeper place i (items.map fun v => (v, tours v)) w) := by
  induction items generalizing i w with
  | nil => exact .of_ok [] hw
  | cons v r ih =>
    have ih := @ih fun v hv => hitems v (List.mem_cons_of_mem _ hv)
    -- The rest is gone through from wherever the first item leads.
    have hrest {marks : List String} {w : Walk} {x : Except RevealError (Value × Walk)}
        {c : Course (Value × Walk)} (hc : Records t marks w x c) (hn : n ≤ w.spent t) :
        Records t marks w (x >>= fun a =>
            visitItems t below place (i + 1) (r.map fun v => (v, visits v)) a.2 >>= fun b =>
              pure (a.1 :: b.1, b.2))
          (c >>= fun a => tourItems t deeper place (i + 1) (r.map fun v => (v, tours v)) a.2 >>=
            fun b => pure (a.1 :: b.1, b.2)) := by
      refine hc.followed fun u w₁ _ hw₁ hspent => ?_
      exact (ih (i + 1) hw₁ (Nat.le_trans hn hspent)).followed fun us w₂ _ hw₂ _ => .of_ok _ hw₂
    rw [List.map_cons, List.map_cons, visitItems, tourItems]
    cases hp : Digests.placeholder? v with
    | none => exact hrest (hitems v List.mem_cons_self _ w hw hn) hn
    | some g =>
      cases hmeet : t.meet g w with
      | error e =>
        simp only [hmeet]
        exact .of_error e
      | ok w₁ =>
        obtain ⟨hadv, hw₁, -⟩ := Table.met_of_meet hmeet hw
        obtain ⟨-, hg, -⟩ := Table.meet_eq_ok_iff.1 hmeet
        simp only [hmeet]
        cases hfind : t.find? g with
        | none =>
          exact (ih i hw₁ (Nat.le_trans hn hadv.spent_le)).after hadv (List.forall_mem_nil _)
        | some c =>
          cases c with
          | member name u => exact .of_error _
          | item u =>
            have hplace : w.Advances (w₁.place g (place.pushIndex i)) [g]
                [(g, place.pushIndex i)] := hadv.trans (.of_met rfl rfl)
            have hspent : n + 1 ≤ (w₁.place g (place.pushIndex i)).spent t :=
              hplace.lt_spent List.mem_cons_self hfind hn
            have hmark : ∀ g', some g = some g' →
                g' ∈ (w₁.place g (place.pushIndex i)).met ∧ (t.find? g').isSome = true := by
              rintro _ ⟨⟩
              exact ⟨hplace.met.mem_iff.2 List.mem_cons_self, by rw [hfind]; rfl⟩
            have hcourse := (hbelow g u hfind (place.pushIndex i) (w₁.place g (place.pushIndex i))
              hw₁ hspent).expanding hmark
            refine (hrest hcourse (Nat.le_of_succ_le hspent)).after hplace fun g' hg' => ?_
            rw [List.mem_singleton.1 hg']
            exact hg

theorem records_visitObject {below : Value → Visit} {deeper : Value → Tour} {ms : Members}
    (hbelow : ∀ g c, t.Discloses g c → Accompanies t (n + 1) (below c.value) (deeper c.value))
    (hmembers : ∀ m ∈ ms, Accompanies t n (visit t below m.2) (tour t deeper m.2))
    (place : Pointer) {w : Walk} (hw : w.met.Nodup) (hn : n ≤ w.spent t) :
    Records t [] w (visitObject t below (memberVisits t below ms) place w)
      (tourObject t deeper (memberTours t deeper ms) place w) := by
  simp only [visitObject, tourObject, get?_memberVisits, get?_memberTours]
  cases hfound : t.disclosedMembers place (Members.get? ms Digests.membersName) w with
  | error e => exact .of_error e
  | ok r =>
    obtain ⟨found, w₁⟩ := r
    obtain ⟨ds, htexts, rfl, hf⟩ := found_of_disclosedMembers hfound
    simp only [Course.of_ok_bind, textsOf_of_digestTexts? htexts,
      insertMembers_tours t deeper ms isSome_of_mem_foundBy]
    have hvisits : (Except.ok (plain (foundBy t.find? ds), w₁) >>= fun r =>
        insertMembers (ownMembers (memberVisits t below ms))
          (r.1.map fun m => (m.1, below m.2)) >>= fun all => visitMembers place all r.2) =
        ((slotsOf ms (foundBy t.find? ds)).map fun slots =>
          slots.map fun s => (s.1, visitSlot t below s.2)) >>= fun all =>
            visitMembers place all w₁ := by
      rw [← insertMembers_visits t below ms isSome_of_mem_foundBy]
      rfl
    rw [hvisits]
    cases hslots : slotsOf ms (foundBy t.find? ds) with
    | error e => exact .of_error e
    | ok slots =>
      obtain ⟨hnodup, hmarks⟩ := hf.nodup_marksOf hslots hw
      have hslot : ∀ s ∈ slots,
          Accompanies t (w₁.spent t) (visitSlot t below s.2) (tourSlot t deeper s.2) := by
        intro s hs
        rcases hf.slot_cases hslots hs with ⟨hnone, hm⟩ | ⟨g, hg, hd, hlt⟩
        · rw [visitSlot, tourSlot, hnone]
          exact (hmembers _ hm).mono (Nat.le_trans hn hf.advances.spent_le)
        · rw [visitSlot, tourSlot, hg]
          exact (hbelow g _ hd).mono (Nat.lt_of_le_of_lt hn hlt)
      have hrest := records_visitMembers hslot (fun g hg => (hmarks g hg).2.2) hnodup place
        (hf.nodup hw) (Nat.le_refl _) fun g hg => (hmarks g hg).2.1
      exact hrest.after hf.advances fun g hg => (hmarks g hg).1

/-! ## Values -/

theorem accompanies_tour {below : Value → Visit} {deeper : Value → Tour}
    (hbelow : ∀ g c, t.Discloses g c → Accompanies t (n + 1) (below c.value) (deeper c.value))
    (v : Value) : Accompanies t n (visit t below v) (tour t deeper v) := by
  induction v using Value.induct with
  | scalar v hdepth =>
    intro place w hw _
    cases v <;> first | exact .of_ok _ hw | cases hdepth
  | array items ih =>
    intro place w hw hn
    rw [visit, tour, itemVisits_eq_map, itemTours_eq_map]
    exact (records_visitItems (fun g u hg => hbelow g _ hg) ih place 0 hw hn).followed
      fun vs w' _ hw' _ => .of_ok _ hw'
  | object ms ih =>
    intro place w hw hn
    rw [visit, tour]
    exact (records_visitObject hbelow ih place hw hn).followed fun vs w' _ hw' _ => .of_ok _ hw'

theorem accompanies_tourBelow (m : Nat) {j k : Nat} (hj : m ≤ j) (hk : m ≤ k) (v : Value) :
    Accompanies t (t.entries.length + 1 - m) (visitBelow t j v) (tourBelow t k v) := by
  induction m generalizing j k v with
  | zero =>
    -- A tour is stopped only after it has met more disclosures than the table has.
    intro place w hw hn
    have hle := Walk.spent_le_length (t := t) hw
    omega
  | succ m ih =>
    obtain ⟨j, rfl⟩ := Nat.exists_eq_add_one_of_ne_zero (by omega : j ≠ 0)
    obtain ⟨k, rfl⟩ := Nat.exists_eq_add_one_of_ne_zero (by omega : k ≠ 0)
    rw [visitBelow, tourBelow]
    apply accompanies_tour
    intro g c _
    exact (ih (by omega) (by omega) c.value).mono (by omega)

end Step

end Reveal

namespace Payload

theorem records_walk (p : Payload) (t : Table) {j k : Nat} (hj : t.entries.length ≤ j)
    (hk : t.entries.length ≤ k) :
    Records t [] .start (p.walk t j)
      (tourObject t (tourBelow t k) (memberTours t (tourBelow t k) p.claims) .root .start) := by
  have hbelow : ∀ g c, t.Discloses g c →
      Accompanies t (0 + 1) (visitBelow t j c.value) (tourBelow t k c.value) :=
    fun g c _ => (accompanies_tourBelow t.entries.length hj hk c.value).mono (by omega)
  exact records_visitObject hbelow (fun m _ => accompanies_tour hbelow m.2) .root
    List.Pairwise.nil (Nat.zero_le _)

theorem course_ends (f : DigestFunction) (p : Payload) (ds : List Disclosure) {depth : Nat}
    (hdepth : ds.length ≤ depth) :
    (p.course f ds depth).outcome = some (p.reveal f ds) ∧
      (p.course f ds depth).expanded.Nodup ∧
      (p.course f ds depth).expanded ⊆ ds.map (digestUnder f p.algorithm) := by
  rw [course, reveal]
  cases ht : table f p.algorithm ds with
  | error e => exact ⟨rfl, List.Pairwise.nil, List.nil_subset _⟩
  | ok t =>
    obtain ⟨-, -, rfl⟩ := table_eq_ok_iff.1 ht
    have hlength : (tableOf f p.algorithm ds).entries.length = ds.length := by
      simp [tableOf, entriesOf]
    have hwalk := p.records_walk (tableOf f p.algorithm ds) (Nat.le_of_eq hlength)
      (hlength ▸ hdepth)
    rw [Course.of_ok_bind, Course.bind_of hwalk.outcome]
    refine ⟨rfl, hwalk.nodup, fun g hg => ?_⟩
    by_contra hnone
    have hnot : (tableOf f p.algorithm ds).Withholds g :=
      withholds_tableOf_iff.2 fun d hd heq => hnone (List.mem_map.2 ⟨d, hd, heq⟩)
    have hdisc := hwalk.disclosed g hg
    rw [hnot] at hdisc
    cases hdisc

end Payload

end SelectiveDisclosure
