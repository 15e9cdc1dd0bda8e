import SelectiveDisclosure.Proofs.Claims.References

/-!
# Paths in an opening

The paths of an opening are those of its slots: each slot has a token of its own, under which lies
what it discloses. So no two disclosures have one path, and one lies inside another exactly if its
path goes on behind the other's.
-/

set_option autoImplicit false

namespace SelectiveDisclosure.Reveal

open Json

namespace Opening

def slotPaths (token : String) (mark : Option String) (o : Opening) :
    List (String × List String) :=
  (mark.map fun g => (g, [token])).toList ++ o.paths.map (under token)

theorem cellPaths_clear (i : Nat) (o : Opening) (r : List (Cell Opening)) :
    cellPaths i (.clear o :: r) = slotPaths (Pointer.indexText i) none o ++ cellPaths (i + 1) r :=
  rfl

theorem cellPaths_disclosed (i : Nat) (g : String) (o : Opening) (r : List (Cell Opening)) :
    cellPaths i (.disclosed g o :: r) =
      slotPaths (Pointer.indexText i) (some g) o ++ cellPaths (i + 1) r :=
  rfl

theorem perm_paths_cons (k : String) (mark : Option String) (o : Opening)
    (r : List (String × Option String × Opening)) :
    (markPaths ((k, mark, o) :: r) ++ memberPaths ((k, mark, o) :: r)).Perm
      (slotPaths k mark o ++ (markPaths r ++ memberPaths r)) := by
  have hswap : (markPaths r ++ (o.paths.map (under k) ++ memberPaths r)).Perm
      (o.paths.map (under k) ++ (markPaths r ++ memberPaths r)) := by
    exact List.perm_append_comm_assoc _ _ _
  cases mark with
  | none => exact hswap
  | some g => exact hswap.cons _

theorem cons_of_mem_slotPaths {token : String} {mark : Option String} {o : Opening}
    {e : String × List String} (h : e ∈ slotPaths token mark o) : ∃ q, e.2 = token :: q := by
  rcases List.mem_append.1 h with h | h
  · cases mark with
    | none => cases h
    | some g => exact ⟨[], by rw [List.mem_singleton.1 h]⟩
  · obtain ⟨e', -, rfl⟩ := List.mem_map.1 h
    exact ⟨e'.2, rfl⟩

theorem cons_of_mem_cellPaths {i : Nat} {cells : List (Cell Opening)} {e : String × List String}
    (h : e ∈ cellPaths i cells) : ∃ j q, i ≤ j ∧ e.2 = Pointer.indexText j :: q := by
  induction cells generalizing i with
  | nil => cases h
  | cons cell r ih =>
    cases cell with
    | withheld g => exact ih h
    | clear o =>
      rw [cellPaths_clear] at h
      rcases List.mem_append.1 h with h | h
      · obtain ⟨q, hq⟩ := cons_of_mem_slotPaths h
        exact ⟨i, q, Nat.le_refl i, hq⟩
      · obtain ⟨j, q, hj, hq⟩ := ih h
        exact ⟨j, q, by omega, hq⟩
    | disclosed g o =>
      rw [cellPaths_disclosed] at h
      rcases List.mem_append.1 h with h | h
      · obtain ⟨q, hq⟩ := cons_of_mem_slotPaths h
        exact ⟨i, q, Nat.le_refl i, hq⟩
      · obtain ⟨j, q, hj, hq⟩ := ih h
        exact ⟨j, q, by omega, hq⟩

theorem cons_of_mem_memberPaths {members : List (String × Option String × Opening)}
    {e : String × List String} (h : e ∈ markPaths members ++ memberPaths members) :
    ∃ k ∈ Members.names members, ∃ q, e.2 = k :: q := by
  induction members with
  | nil => cases h
  | cons m r ih =>
    obtain ⟨k, mark, o⟩ := m
    rcases List.mem_append.1 ((perm_paths_cons k mark o r).mem_iff.1 h) with h | h
    · obtain ⟨q, hq⟩ := cons_of_mem_slotPaths h
      exact ⟨k, by simp [Members.names], q, hq⟩
    · obtain ⟨k', hk', q, hq⟩ := ih h
      exact ⟨k', List.mem_cons_of_mem _ hk', q, hq⟩

theorem ne_nil_of_mem_paths {o : Opening} {e : String × List String} (h : e ∈ o.paths) :
    e.2 ≠ [] := by
  cases o with
  | leaf v => cases h
  | array cells =>
    obtain ⟨j, q, -, hq⟩ := cons_of_mem_cellPaths h
    simp [hq]
  | object withheld members =>
    obtain ⟨k, -, q, hq⟩ := cons_of_mem_memberPaths h
    simp [hq]

/-! ## Digests of paths -/

mutual

def hidden : Opening → List String
  | .leaf _ => []
  | .array cells => cellHidden cells
  | .object withheld members => withheld ++ memberHidden members

def cellHidden : List (Cell Opening) → List String
  | [] => []
  | .clear o :: r => hidden o ++ cellHidden r
  | .disclosed _ o :: r => hidden o ++ cellHidden r
  | .withheld g :: r => g :: cellHidden r

def memberHidden : List (String × Option String × Opening) → List String
  | [] => []
  | (_, _, o) :: r => hidden o ++ memberHidden r

end

theorem perm_append_append {α : Type} {as bs ps hs qs ks : List α} (ha : as.Perm (ps ++ hs))
    (hb : bs.Perm (qs ++ ks)) : (as ++ bs).Perm (ps ++ qs ++ (hs ++ ks)) := by
  apply (ha.append hb).trans
  rw [List.append_assoc, List.append_assoc]
  apply List.Perm.append_left ps
  exact List.perm_append_comm_assoc _ _ _

mutual

theorem perm_digests (o : Opening) : o.digests.Perm (o.paths.map Prod.fst ++ o.hidden) := by
  cases o with
  | leaf v => exact List.Perm.refl _
  | array cells => exact perm_cellDigests 0 cells
  | object withheld members =>
    rw [paths, digests, hidden, List.map_append, markPaths_fst]
    exact perm_append_append (List.Perm.refl _) (perm_memberDigests members)

theorem perm_cellDigests (i : Nat) (cells : List (Cell Opening)) :
    (cellDigests cells).Perm ((cellPaths i cells).map Prod.fst ++ cellHidden cells) := by
  cases cells with
  | nil => exact List.Perm.refl _
  | cons cell r =>
    cases cell with
    | clear o =>
      rw [cellPaths, cellDigests, cellHidden, List.map_append, List.map_map]
      exact perm_append_append (perm_digests o) (perm_cellDigests (i + 1) r)
    | disclosed g o =>
      rw [cellPaths, cellDigests, cellHidden, List.map_append, List.map_cons, List.map_map]
      exact perm_append_append ((perm_digests o).cons g) (perm_cellDigests (i + 1) r)
    | withheld g => exact ((perm_cellDigests i r).cons g).trans List.perm_middle.symm

theorem perm_memberDigests (members : List (String × Option String × Opening)) :
    (memberDigests members).Perm
      ((memberPaths members).map Prod.fst ++ memberHidden members) := by
  cases members with
  | nil => exact List.Perm.refl _
  | cons m r =>
    obtain ⟨k, mark, o⟩ := m
    rw [memberPaths, memberDigests, memberHidden, List.map_append, List.map_map]
    exact perm_append_append (perm_digests o) (perm_memberDigests r)

end

section Hidden
variable {D : String → Concealed → Prop} {H H' : String → Prop}

mutual

theorem opens_of_hidden (o : Opening) {v : Value} (h : Opens D H o v)
    (hH : ∀ g ∈ o.hidden, H g → H' g) : Opens D H' o v := by
  cases o with
  | leaf u => exact h
  | array cells =>
    obtain ⟨items, rfl, hitems⟩ := h
    exact ⟨items, rfl, opensItems_of_hidden cells hitems hH⟩
  | object withheld members =>
    obtain ⟨ms, ds, slots, rfl, htexts, hclear, hasc, hperm, hwith, hmembers⟩ := h
    refine ⟨ms, ds, slots, rfl, htexts, hclear, hasc, hperm, fun g hg => ?_, ?_⟩
    · exact hH g (List.mem_append_left _ hg) (hwith g hg)
    · exact opensMembers_of_hidden members hmembers
        fun g hg => hH g (List.mem_append_right _ hg)

theorem opensItems_of_hidden (cells : List (Cell Opening)) {items : List Value}
    (h : OpensItems D H cells items) (hH : ∀ g ∈ cellHidden cells, H g → H' g) :
    OpensItems D H' cells items := by
  cases cells with
  | nil => exact h
  | cons cell r =>
    cases cell with
    | clear o =>
      obtain ⟨v, rest, rfl, hplace, ho, hr⟩ := h
      exact ⟨v, rest, rfl, hplace,
        opens_of_hidden o ho fun g hg => hH g (List.mem_append_left _ hg),
        opensItems_of_hidden r hr fun g hg => hH g (List.mem_append_right _ hg)⟩
    | disclosed g o =>
      obtain ⟨v, rest, rfl, hplace, ⟨u, hu, ho⟩, hr⟩ := h
      exact ⟨v, rest, rfl, hplace,
        ⟨u, hu, opens_of_hidden o ho fun g hg => hH g (List.mem_append_left _ hg)⟩,
        opensItems_of_hidden r hr fun g hg => hH g (List.mem_append_right _ hg)⟩
    | withheld g =>
      obtain ⟨v, rest, rfl, hplace, hg, hr⟩ := h
      exact ⟨v, rest, rfl, hplace, hH g List.mem_cons_self hg,
        opensItems_of_hidden r hr fun g hg => hH g (List.mem_cons_of_mem _ hg)⟩

theorem opensMembers_of_hidden (members : List (String × Option String × Opening))
    {slots : List (String × Option String × Value)} (h : OpensMembers D H members slots)
    (hH : ∀ g ∈ memberHidden members, H g → H' g) : OpensMembers D H' members slots := by
  cases members with
  | nil => exact h
  | cons m r =>
    obtain ⟨k, mark, o⟩ := m
    obtain ⟨v, rest, rfl, hd, ho, hr⟩ := h
    exact ⟨v, rest, rfl, hd,
      opens_of_hidden o ho fun g hg => hH g (List.mem_append_left _ hg),
      opensMembers_of_hidden r hr fun g hg => hH g (List.mem_append_right _ hg)⟩

end

mutual

theorem withheld_of_mem_hidden (o : Opening) {v : Value} (h : Opens D H o v) :
    ∀ g ∈ o.hidden, H g := by
  cases o with
  | leaf u => exact nofun
  | array cells =>
    obtain ⟨items, rfl, hitems⟩ := h
    exact withheld_of_mem_cellHidden cells hitems
  | object withheld members =>
    obtain ⟨ms, ds, slots, rfl, -, -, -, -, hwith, hmembers⟩ := h
    exact List.forall_mem_append.2 ⟨hwith, withheld_of_mem_memberHidden members hmembers⟩

theorem withheld_of_mem_cellHidden (cells : List (Cell Opening)) {items : List Value}
    (h : OpensItems D H cells items) : ∀ g ∈ cellHidden cells, H g := by
  cases cells with
  | nil => exact nofun
  | cons cell r =>
    cases cell with
    | clear o =>
      obtain ⟨v, rest, rfl, -, ho, hr⟩ := h
      exact List.forall_mem_append.2
        ⟨withheld_of_mem_hidden o ho, withheld_of_mem_cellHidden r hr⟩
    | disclosed g o =>
      obtain ⟨v, rest, rfl, -, ⟨u, -, ho⟩, hr⟩ := h
      exact List.forall_mem_append.2
        ⟨withheld_of_mem_hidden o ho, withheld_of_mem_cellHidden r hr⟩
    | withheld g =>
      obtain ⟨v, rest, rfl, -, hg, hr⟩ := h
      exact List.forall_mem_cons.2 ⟨hg, withheld_of_mem_cellHidden r hr⟩

theorem withheld_of_mem_memberHidden (members : List (String × Option String × Opening))
    {slots : List (String × Option String × Value)} (h : OpensMembers D H members slots) :
    ∀ g ∈ memberHidden members, H g := by
  cases members with
  | nil => exact nofun
  | cons m r =>
    obtain ⟨k, mark, o⟩ := m
    obtain ⟨v, rest, rfl, -, ho, hr⟩ := h
    exact List.forall_mem_append.2
      ⟨withheld_of_mem_hidden o ho, withheld_of_mem_memberHidden r hr⟩

end

theorem mem_fst_paths {o : Opening} {v : Value} (h : Opens D H o v) {g : String}
    (hg : g ∈ o.digests) (hnot : ¬H g) : g ∈ o.paths.map Prod.fst := by
  rcases List.mem_append.1 (o.perm_digests.mem_iff.1 hg) with hg | hg
  · exact hg
  · exact absurd (withheld_of_mem_hidden o h g hg) hnot

end Hidden

section Opens
variable {D : String → Concealed → Prop} {H : String → Prop}

section SlotPaths
variable {Q : String → Prop} {token : String} {o : Opening}

theorem forall_mem_slotPaths_none_iff :
    (∀ e ∈ slotPaths token none o, Q e.1) ↔ ∀ e ∈ o.paths, Q e.1 :=
  List.forall_mem_map

theorem forall_mem_slotPaths_some_iff {g : String} :
    (∀ e ∈ slotPaths token (some g) o, Q e.1) ↔ Q g ∧ ∀ e ∈ o.paths, Q e.1 :=
  List.forall_mem_cons.trans (and_congr_right' List.forall_mem_map)

end SlotPaths

theorem forall_mem_paths_cons_iff {Q : String → Prop} {k : String} {mark : Option String}
    {o : Opening} {r : List (String × Option String × Opening)} :
    (∀ e ∈ markPaths ((k, mark, o) :: r) ++ memberPaths ((k, mark, o) :: r), Q e.1) ↔
      (∀ e ∈ slotPaths k mark o, Q e.1) ∧ ∀ e ∈ markPaths r ++ memberPaths r, Q e.1 := by
  simp only [(perm_paths_cons k mark o r).mem_iff]
  exact List.forall_mem_append

/-- A digest that stands for something, with a property of how it refers to it. -/
def Referred (D : String → Concealed → Prop) (P : Reference → Prop) (digest : String) : Prop :=
  ∃ c, D digest c ∧ P (.ofConcealed digest c)

/-- A property of references that goes on from each of them to those in what it discloses. -/
def Inherited (D : String → Concealed → Prop) (P : Reference → Prop) : Prop :=
  ∀ g c, D g c → P (.ofConcealed g c) → ∀ r ∈ Reference.inValue c.value, P r

section Referred
variable {P : Reference → Prop}

mutual

/-- Digests with a path have a disclosure, and an inherited property of the references in a value
holds of how they refer to it. -/
theorem referred_of_mem_paths (hP : Inherited D P) (o : Opening) {v : Value} (h : Opens D H o v)
    (hv : ∀ r ∈ Reference.inValue v, P r) : ∀ e ∈ o.paths, Referred D P e.1 := by
  cases o with
  | leaf u => exact fun e he => nomatch he
  | array cells =>
    obtain ⟨items, rfl, hitems⟩ := h
    exact referred_of_mem_cellPaths hP cells hitems hv 0
  | object withheld members =>
    obtain ⟨ms, ds, slots, rfl, htexts, hclear, -, hperm, -, hmembers⟩ := h
    apply referred_of_mem_memberPaths hP members hmembers
    intro s hs
    constructor
    · intro hnone
      have hown := mem_clearOf hs hnone
      rw [hclear] at hown
      exact fun r hr => hv r (Reference.mem_inMembers_of_own hown hr)
    · intro g hg
      exact hv _ (Reference.member_mem_inMembers htexts
        (hperm.mem_iff.2 (List.mem_append_left _ (mem_marksOf hs hg))))

theorem referred_of_mem_cellPaths (hP : Inherited D P) (cells : List (Cell Opening))
    {items : List Value} (h : OpensItems D H cells items)
    (hv : ∀ r ∈ Reference.inItems items, P r) (i : Nat) :
    ∀ e ∈ cellPaths i cells, Referred D P e.1 := by
  cases cells with
  | nil => exact fun e he => nomatch he
  | cons cell r =>
    cases cell with
    | clear o =>
      obtain ⟨v, rest, rfl, hplace, ho, hr⟩ := h
      rw [Reference.inItems_of_clear hplace, List.forall_mem_append] at hv
      rw [cellPaths_clear, List.forall_mem_append]
      have ho := referred_of_mem_paths hP o ho hv.1
      exact ⟨forall_mem_slotPaths_none_iff.2 ho, referred_of_mem_cellPaths hP r hr hv.2 _⟩
    | disclosed g o =>
      obtain ⟨v, rest, rfl, hplace, ⟨u, hu, ho⟩, hr⟩ := h
      rw [Reference.inItems_of_placeholder hplace, List.forall_mem_cons] at hv
      rw [cellPaths_disclosed, List.forall_mem_append]
      have ho := referred_of_mem_paths hP o ho (hP g _ hu hv.1)
      exact ⟨forall_mem_slotPaths_some_iff.2 ⟨⟨_, hu, hv.1⟩, ho⟩,
        referred_of_mem_cellPaths hP r hr hv.2 _⟩
    | withheld g =>
      obtain ⟨v, rest, rfl, hplace, -, hr⟩ := h
      rw [Reference.inItems_of_placeholder hplace, List.forall_mem_cons] at hv
      exact referred_of_mem_cellPaths hP r hr hv.2 i

theorem referred_of_mem_memberPaths (hP : Inherited D P)
    (members : List (String × Option String × Opening))
    {slots : List (String × Option String × Value)} (h : OpensMembers D H members slots)
    (hslots : ∀ s ∈ slots, (s.2.1 = none → ∀ r ∈ Reference.inValue s.2.2, P r) ∧
      ∀ g, s.2.1 = some g → P (.member g)) :
    ∀ e ∈ markPaths members ++ memberPaths members, Referred D P e.1 := by
  cases members with
  | nil => exact fun e he => nomatch he
  | cons m r =>
    obtain ⟨k, mark, o⟩ := m
    obtain ⟨v, rest, rfl, hd, ho, hr⟩ := h
    obtain ⟨⟨hclear, hmark⟩, hrest⟩ := List.forall_mem_cons.1 hslots
    refine forall_mem_paths_cons_iff.2 ⟨?_, referred_of_mem_memberPaths hP r hr hrest⟩
    cases mark with
    | none =>
      exact forall_mem_slotPaths_none_iff.2 (referred_of_mem_paths hP o ho (hclear rfl))
    | some g =>
      have hg := hmark g rfl
      have ho := referred_of_mem_paths hP o ho (hP g _ (hd g rfl) hg)
      exact forall_mem_slotPaths_some_iff.2 ⟨⟨_, hd g rfl, hg⟩, ho⟩

end

end Referred

theorem disclosed_of_mem_paths (o : Opening) {v : Value} (h : Opens D H o v) :
    ∀ e ∈ o.paths, ∃ c, D e.1 c := by
  intro e he
  have hP : Inherited D fun _ => True := fun _ _ _ _ _ _ => trivial
  obtain ⟨c, hc, -⟩ := referred_of_mem_paths hP o h (fun _ _ => trivial) e he
  exact ⟨c, hc⟩

/-! ## Paths are distinct -/

theorem nodup_slotPaths {token : String} {mark : Option String} {o : Opening}
    (h : (o.paths.map Prod.snd).Nodup) : ((slotPaths token mark o).map Prod.snd).Nodup := by
  have hunder : ((o.paths.map (under token)).map Prod.snd).Nodup := by
    have hcons : (o.paths.map (under token)).map Prod.snd =
        (o.paths.map Prod.snd).map (token :: ·) := by simp [under]
    rw [hcons]
    exact List.Pairwise.map _ (fun a b hab heq => hab (List.cons.inj heq).2) h
  cases mark with
  | none => exact hunder
  | some g =>
    refine List.nodup_cons.2 ⟨fun hm => ?_, hunder⟩
    obtain ⟨e, he, heq⟩ := List.mem_map.1 hm
    obtain ⟨e', he', rfl⟩ := List.mem_map.1 he
    exact ne_nil_of_mem_paths he' (List.cons.inj heq).2

theorem head?_of_mem_slotPaths {token : String} {mark : Option String} {o : Opening} :
    ∀ e ∈ slotPaths token mark o, e.2.head? = some token := by
  intro e he
  obtain ⟨q, hq⟩ := cons_of_mem_slotPaths he
  rw [hq]
  rfl

theorem nodup_slotPaths_append {token : String} {mark : Option String} {o : Opening}
    {es : List (String × List String)} (ho : (o.paths.map Prod.snd).Nodup)
    (hes : (es.map Prod.snd).Nodup) (h : ∀ e ∈ es, e.2.head? ≠ some token) :
    ((slotPaths token mark o ++ es).map Prod.snd).Nodup := by
  rw [List.map_append, List.nodup_append]
  refine ⟨nodup_slotPaths ho, hes, ?_⟩
  intro p hp q hq heq
  obtain ⟨a, ha, rfl⟩ := List.mem_map.1 hp
  obtain ⟨b, hb, rfl⟩ := List.mem_map.1 hq
  exact h b hb (by rw [← heq, head?_of_mem_slotPaths a ha])

theorem head?_ne_of_mem_cellPaths {i : Nat} {r : List (Cell Opening)} :
    ∀ e ∈ cellPaths (i + 1) r, e.2.head? ≠ some (Pointer.indexText i) := by
  intro e he heq
  obtain ⟨j, q, hj, hq⟩ := cons_of_mem_cellPaths he
  rw [hq] at heq
  have hij := Pointer.indexText_injective (Option.some.inj heq)
  omega

theorem head?_ne_of_mem_memberPaths {k : String} {r : List (String × Option String × Opening)}
    (hk : k ∉ Members.names r) :
    ∀ e ∈ markPaths r ++ memberPaths r, e.2.head? ≠ some k := by
  intro e he heq
  obtain ⟨k', hk', q, hq⟩ := cons_of_mem_memberPaths he
  rw [hq] at heq
  exact hk (Option.some.inj heq ▸ hk')

mutual

theorem nodup_paths (o : Opening) {v : Value} (h : Opens D H o v) :
    (o.paths.map Prod.snd).Nodup := by
  cases o with
  | leaf u => exact List.Pairwise.nil
  | array cells =>
    obtain ⟨items, rfl, hitems⟩ := h
    exact nodup_cellPaths cells hitems 0
  | object withheld members =>
    obtain ⟨ms, ds, slots, -, -, -, hasc, -, -, hmembers⟩ := h
    apply nodup_memberPaths members hmembers
    rw [← names_of_opensMembers hmembers]
    exact Members.nodup_names hasc

theorem nodup_cellPaths (cells : List (Cell Opening)) {items : List Value}
    (h : OpensItems D H cells items) (i : Nat) : ((cellPaths i cells).map Prod.snd).Nodup := by
  cases cells with
  | nil => exact List.Pairwise.nil
  | cons cell r =>
    cases cell with
    | clear o =>
      obtain ⟨v, rest, -, -, ho, hr⟩ := h
      rw [cellPaths_clear]
      exact nodup_slotPaths_append (nodup_paths o ho) (nodup_cellPaths r hr _)
        head?_ne_of_mem_cellPaths
    | disclosed g o =>
      obtain ⟨v, rest, -, -, ⟨u, -, ho⟩, hr⟩ := h
      rw [cellPaths_disclosed]
      exact nodup_slotPaths_append (nodup_paths o ho) (nodup_cellPaths r hr _)
        head?_ne_of_mem_cellPaths
    | withheld g =>
      obtain ⟨v, rest, -, -, -, hr⟩ := h
      exact nodup_cellPaths r hr i

theorem nodup_memberPaths (members : List (String × Option String × Opening))
    {slots : List (String × Option String × Value)} (h : OpensMembers D H members slots)
    (hn : (Members.names members).Nodup) :
    ((markPaths members ++ memberPaths members).map Prod.snd).Nodup := by
  cases members with
  | nil => exact List.Pairwise.nil
  | cons m r =>
    obtain ⟨k, mark, o⟩ := m
    obtain ⟨v, rest, -, -, ho, hr⟩ := h
    obtain ⟨hk, hn⟩ := List.nodup_cons.1 hn
    apply ((perm_paths_cons k mark o r).map _).nodup_iff.2
    exact nodup_slotPaths_append (nodup_paths o ho) (nodup_memberPaths r hr hn)
      (head?_ne_of_mem_memberPaths hk)

end

end Opens

end Opening

end SelectiveDisclosure.Reveal
