import SelectiveDisclosure.Proofs.Claims.Paths

/-!
# Pruned openings

When some of the digests no longer have their disclosures, the tree loses what these disclosed. What
is left opens with the disclosures that were kept, and its value is the former one without the
values at the paths of the others.
-/

set_option autoImplicit false

namespace SelectiveDisclosure

open Json

namespace Json.Value

mutual

/-- What is left when the values at some paths are taken out. The items of an array move up into
the gaps. -/
def without : (List String → Bool) → Value → Value
  | gone, .array items => .array (withoutItems gone 0 items)
  | gone, .object members => .object (withoutMembers gone members)
  | _, v => v

def withoutItems : (List String → Bool) → Nat → List Value → List Value
  | _, _, [] => []
  | gone, i, v :: r =>
    if gone [Pointer.indexText i] then withoutItems gone (i + 1) r
    else without (fun path => gone (Pointer.indexText i :: path)) v :: withoutItems gone (i + 1) r

def withoutMembers : (List String → Bool) → List (String × Value) → List (String × Value)
  | _, [] => []
  | gone, (k, v) :: r =>
    if gone [k] then withoutMembers gone r
    else (k, without (fun path => gone (k :: path)) v) :: withoutMembers gone r

end

theorem without_of_isScalar (gone : List String → Bool) {v : Value} (h : Reveal.IsScalar v) :
    v.without gone = v := by
  cases v <;> first | rfl | exact absurd h id

theorem without_of_none {gone : List String → Bool} (h : ∀ path, gone path = false) (v : Value) :
    v.without gone = v := by
  induction v using Value.induct generalizing gone with
  | scalar v hv => exact without_of_isScalar gone (Reveal.isScalar_of_depth_eq_zero hv)
  | array items ih =>
    have hitems : ∀ i, withoutItems gone i items = items := by
      induction items with
      | nil => exact fun i => rfl
      | cons v r ihr =>
        obtain ⟨hv, hr⟩ := List.forall_mem_cons.1 ih
        intro i
        rw [withoutItems, h, if_neg Bool.false_ne_true, hv fun path => h _, ihr hr]
    rw [without, hitems]
  | object ms ih =>
    have hmembers : withoutMembers gone ms = ms := by
      induction ms with
      | nil => rfl
      | cons m r ihr =>
        obtain ⟨hm, hr⟩ := List.forall_mem_cons.1 ih
        rw [withoutMembers, h, if_neg Bool.false_ne_true, hm fun path => h _, ihr hr]
    rw [without, hmembers]

section Members
variable {gone : List String → Bool} {ms : Members} {name : String}

theorem get?_withoutMembers_eq (gone : List String → Bool) (ms : Members) (name : String) :
    Members.get? (withoutMembers gone ms) name =
      if gone [name] then none
      else (Members.get? ms name).map (without fun path => gone (name :: path)) := by
  induction ms with
  | nil => simp [withoutMembers, Members.get?]
  | cons m r ih =>
    obtain ⟨k, v⟩ := m
    rw [withoutMembers]
    by_cases hk : k = name
    · subst hk
      by_cases hgone : gone [k] = true
      · rw [if_pos hgone, ih, if_pos hgone, if_pos hgone]
      · rw [if_neg hgone, if_neg hgone, Members.get?, if_pos rfl, Members.get?, if_pos rfl,
          Option.map_some]
    · by_cases hgone : gone [k] = true
      · rw [if_pos hgone, ih, Members.get?, if_neg hk]
      · rw [if_neg hgone, Members.get?, if_neg hk, ih, Members.get?, if_neg hk]

theorem get?_withoutMembers_of_absent (h : Members.get? ms name = none) :
    Members.get? (withoutMembers gone ms) name = none := by
  rw [get?_withoutMembers_eq, h, Option.map_none, ite_self]

theorem get?_withoutMembers (h : ∀ path, gone (name :: path) = false) :
    Members.get? (withoutMembers gone ms) name = Members.get? ms name := by
  rw [get?_withoutMembers_eq, h, if_neg Bool.false_ne_true]
  cases Members.get? ms name with
  | none => rfl
  | some v => rw [Option.map_some, without_of_none fun path => h path]

end Members

end Json.Value

namespace Reveal.Opening

mutual

def prune (keep : String → Bool) : Opening → Opening
  | .leaf v => .leaf v
  | .array cells => .array (pruneCells keep cells)
  | .object withheld members =>
    .object (((marksOf members).filter fun g => !keep g) ++ withheld) (pruneMembers keep members)

def pruneCells (keep : String → Bool) : List (Cell Opening) → List (Cell Opening)
  | [] => []
  | .clear o :: r => .clear (prune keep o) :: pruneCells keep r
  | .disclosed g o :: r =>
    (if keep g then .disclosed g (prune keep o) else .withheld g) :: pruneCells keep r
  | .withheld g :: r => .withheld g :: pruneCells keep r

def pruneMembers (keep : String → Bool) :
    List (String × Option String × Opening) → List (String × Option String × Opening)
  | [] => []
  | (k, mark, o) :: r =>
    if mark.all keep then (k, mark, prune keep o) :: pruneMembers keep r else pruneMembers keep r

end

theorem marksOf_pruneMembers (keep : String → Bool)
    (members : List (String × Option String × Opening)) :
    marksOf (pruneMembers keep members) = (marksOf members).filter keep := by
  induction members with
  | nil => rfl
  | cons m r ih =>
    obtain ⟨k, mark, o⟩ := m
    cases mark with
    | none => simpa [pruneMembers] using ih
    | some g => by_cases hg : keep g = true <;> simp [pruneMembers, hg, ih]

theorem marksOf_filter {α : Type} (keep : String → Bool)
    (slots : List (String × Option String × α)) :
    marksOf (slots.filter fun s => s.2.1.all keep) = (marksOf slots).filter keep ∧
      clearOf (slots.filter fun s => s.2.1.all keep) = clearOf slots := by
  induction slots with
  | nil => exact ⟨rfl, rfl⟩
  | cons s r ih =>
    obtain ⟨k, mark, a⟩ := s
    cases mark with
    | none => simpa using ih
    | some g => by_cases hg : keep g = true <;> simpa [hg] using ih

/-! ## Pruned trees open -/

section Opens
variable {D : String → Concealed → Prop} {H : String → Prop} (keep : String → Bool)

mutual

theorem opens_prune (o : Opening) {v : Value} (h : Opens D H o v) :
    Opens (fun g c => keep g = true ∧ D g c) (fun g => H g ∨ keep g = false) (prune keep o) v := by
  cases o with
  | leaf u => exact h
  | array cells =>
    obtain ⟨items, rfl, hitems⟩ := h
    exact ⟨items, rfl, opensItems_prune cells hitems⟩
  | object withheld members =>
    obtain ⟨ms, ds, slots, rfl, htexts, hclear, hasc, hperm, hwith, hmembers⟩ := h
    obtain ⟨hmarks, hsame⟩ := marksOf_filter keep slots
    refine ⟨ms, ds, slots.filter fun s => s.2.1.all keep, rfl, htexts, by rw [hsame, hclear],
      hasc.sublist List.filter_sublist, ?_, ?_, opensMembers_prune members hmembers⟩
    · rw [hmarks, ← List.append_assoc, ← (marksOf_of_opensMembers hmembers).1]
      exact hperm.trans ((List.filter_append_perm keep _).symm.append_right _)
    · intro g hg
      rcases List.mem_append.1 hg with hg | hg
      · exact .inr (by simpa using (List.mem_filter.1 hg).2)
      · exact .inl (hwith g hg)

theorem opensItems_prune (cells : List (Cell Opening)) {items : List Value}
    (h : OpensItems D H cells items) :
    OpensItems (fun g c => keep g = true ∧ D g c) (fun g => H g ∨ keep g = false)
      (pruneCells keep cells) items := by
  cases cells with
  | nil => exact h
  | cons cell r =>
    cases cell with
    | clear o =>
      obtain ⟨v, rest, rfl, hplace, ho, hr⟩ := h
      exact ⟨v, rest, rfl, hplace, opens_prune o ho, opensItems_prune r hr⟩
    | disclosed g o =>
      obtain ⟨v, rest, rfl, hplace, ⟨u, hu, ho⟩, hr⟩ := h
      rw [pruneCells]
      by_cases hg : keep g = true
      · rw [if_pos hg]
        exact ⟨v, rest, rfl, hplace, ⟨u, ⟨hg, hu⟩, opens_prune o ho⟩, opensItems_prune r hr⟩
      · rw [if_neg hg]
        exact ⟨v, rest, rfl, hplace, .inr (Bool.not_eq_true _ ▸ hg), opensItems_prune r hr⟩
    | withheld g =>
      obtain ⟨v, rest, rfl, hplace, hg, hr⟩ := h
      exact ⟨v, rest, rfl, hplace, .inl hg, opensItems_prune r hr⟩

theorem opensMembers_prune (members : List (String × Option String × Opening))
    {slots : List (String × Option String × Value)} (h : OpensMembers D H members slots) :
    OpensMembers (fun g c => keep g = true ∧ D g c) (fun g => H g ∨ keep g = false)
      (pruneMembers keep members) (slots.filter fun s => s.2.1.all keep) := by
  cases members with
  | nil =>
    rw [OpensMembers] at h
    subst h
    rw [pruneMembers, List.filter_nil, OpensMembers]
  | cons m r =>
    obtain ⟨k, mark, o⟩ := m
    obtain ⟨v, rest, rfl, hd, ho, hr⟩ := h
    rw [pruneMembers]
    by_cases hm : mark.all keep = true
    · rw [if_pos hm, List.filter_cons_of_pos (by exact hm)]
      refine ⟨v, _, rfl, fun g hg => ⟨?_, hd g hg⟩, opens_prune o ho, opensMembers_prune r hr⟩
      simpa [hg] using hm
    · rw [if_neg hm, List.filter_cons_of_neg (by exact hm)]
      exact opensMembers_prune r hr

end

end Opens

/-! ## Digests of a pruned tree -/

mutual

theorem count_digests_prune (keep : String → Bool) (g : String) (o : Opening) :
    (prune keep o).digests.count g ≤ o.digests.count g := by
  cases o with
  | leaf v => exact Nat.le_refl _
  | array cells => exact count_cellDigests_prune keep g cells
  | object withheld members =>
    have hr := count_memberDigests_prune keep g members
    have hmarks : ((marksOf members).filter keep).count g +
        ((marksOf members).filter fun g => !keep g).count g = (marksOf members).count g := by
      rw [← List.count_append]
      exact (List.filter_append_perm keep _).count_eq g
    simp only [prune, digests, List.count_append, marksOf_pruneMembers]
    omega

theorem count_cellDigests_prune (keep : String → Bool) (g : String) (cells : List (Cell Opening)) :
    (cellDigests (pruneCells keep cells)).count g ≤ (cellDigests cells).count g := by
  cases cells with
  | nil => exact Nat.le_refl _
  | cons cell r =>
    have hr := count_cellDigests_prune keep g r
    cases cell with
    | clear o =>
      have ho := count_digests_prune keep g o
      simp only [pruneCells, cellDigests, List.count_append]
      omega
    | disclosed g' o =>
      have ho := count_digests_prune keep g o
      rw [pruneCells]
      by_cases hg : keep g' = true
      · simp only [if_pos hg, cellDigests, List.count_cons, List.cons_append, List.count_append]
        omega
      · simp only [if_neg hg, cellDigests, List.count_cons, List.cons_append, List.count_append]
        omega
    | withheld g' =>
      simp only [pruneCells, cellDigests, List.count_cons]
      omega

theorem count_memberDigests_prune (keep : String → Bool) (g : String)
    (members : List (String × Option String × Opening)) :
    (memberDigests (pruneMembers keep members)).count g ≤ (memberDigests members).count g := by
  cases members with
  | nil => exact Nat.le_refl _
  | cons m r =>
    obtain ⟨k, mark, o⟩ := m
    have hr := count_memberDigests_prune keep g r
    have ho := count_digests_prune keep g o
    rw [pruneMembers]
    by_cases hm : mark.all keep = true
    · simp only [if_pos hm, memberDigests, List.count_append]
      omega
    · simp only [if_neg hm, memberDigests, List.count_append]
      omega

end

theorem nodup_digests_prune (keep : String → Bool) {o : Opening} (h : o.digests.Nodup) :
    (prune keep o).digests.Nodup :=
  List.nodup_iff_count.2 fun g =>
    Nat.le_trans (count_digests_prune keep g o) (List.nodup_iff_count.1 h g)

theorem mem_digests_of_prune (keep : String → Bool) {o : Opening} {g : String}
    (h : g ∈ (prune keep o).digests) : g ∈ o.digests :=
  List.count_pos_iff.1 (Nat.lt_of_lt_of_le (List.count_pos_iff.2 h) (count_digests_prune keep g o))

/-! ## Paths of a pruned tree -/

/-- The digest has a path, and with it all whose paths it goes through are kept. -/
def Kept (keep : String → Bool) (es : List (String × List String)) (g : String) : Prop :=
  ∃ path, (g, path) ∈ es ∧ ∀ e ∈ es, e.2 <+: path → keep e.1 = true

section Kept
variable {keep : String → Bool} {g : String}

theorem kept_congr {as bs : List (String × List String)} (h : ∀ e, e ∈ as ↔ e ∈ bs) :
    Kept keep as g ↔ Kept keep bs g := by
  simp only [Kept, h]

theorem head?_eq_of_isPrefix {as bs : List String} (h : as <+: bs) (hne : as ≠ []) :
    as.head? = bs.head? := by
  obtain ⟨t, rfl⟩ := h
  cases as with
  | nil => exact absurd rfl hne
  | cons a r => rfl

theorem kept_slotPaths_append {token : String} {mark : Option String} {o : Opening}
    {es : List (String × List String)} (hne : ∀ e ∈ es, e.2 ≠ [])
    (h : ∀ e ∈ es, e.2.head? ≠ some token) :
    Kept keep (slotPaths token mark o ++ es) g ↔
      Kept keep (slotPaths token mark o) g ∨ Kept keep es g := by
  constructor
  · rintro ⟨path, hmem, hkeep⟩
    rcases List.mem_append.1 hmem with hm | hm
    · exact .inl ⟨path, hm, fun e he => hkeep e (List.mem_append_left _ he)⟩
    · exact .inr ⟨path, hm, fun e he => hkeep e (List.mem_append_right _ he)⟩
  · rintro (⟨path, hm, hkeep⟩ | ⟨path, hm, hkeep⟩)
    · refine ⟨path, List.mem_append_left _ hm, fun e he hpre => ?_⟩
      rcases List.mem_append.1 he with he | he
      · exact hkeep e he hpre
      · refine absurd ?_ (h e he)
        rw [head?_eq_of_isPrefix hpre (hne e he)]
        exact head?_of_mem_slotPaths _ hm
    · refine ⟨path, List.mem_append_right _ hm, fun e he hpre => ?_⟩
      rcases List.mem_append.1 he with he | he
      · refine absurd ?_ (h _ hm)
        obtain ⟨q, hq⟩ := cons_of_mem_slotPaths he
        rw [← head?_eq_of_isPrefix hpre (by simp [hq])]
        exact head?_of_mem_slotPaths e he
      · exact hkeep e he hpre

theorem kept_under {token : String} {es : List (String × List String)} :
    Kept keep (es.map (under token)) g ↔ Kept keep es g := by
  constructor
  · rintro ⟨path, hm, hkeep⟩
    obtain ⟨e, he, heq⟩ := List.mem_map.1 hm
    cases heq
    refine ⟨e.2, he, fun e' he' hpre => ?_⟩
    exact hkeep (under token e') (List.mem_map.2 ⟨e', he', rfl⟩)
      (List.cons_prefix_cons.2 ⟨rfl, hpre⟩)
  · rintro ⟨path, hm, hkeep⟩
    refine ⟨token :: path, List.mem_map.2 ⟨_, hm, rfl⟩, fun e he hpre => ?_⟩
    obtain ⟨e', he', rfl⟩ := List.mem_map.1 he
    exact hkeep e' he' (List.cons_prefix_cons.1 hpre).2

theorem kept_slotPaths {token : String} {mark : Option String} {o : Opening} :
    Kept keep (slotPaths token mark o) g ↔
      mark.all keep = true ∧ (mark = some g ∨ Kept keep o.paths g) := by
  cases mark with
  | none => simpa [slotPaths] using kept_under
  | some m =>
    have hunder : Kept keep (o.paths.map (under token)) g ↔ Kept keep o.paths g := kept_under
    rw [← hunder]
    constructor
    · rintro ⟨path, hm, hkeep⟩
      have hpre : [token] <+: path := by
        obtain ⟨q, hq⟩ := cons_of_mem_slotPaths hm
        simp only at hq
        exact ⟨q, by rw [hq]; rfl⟩
      refine ⟨hkeep (m, [token]) (by simp [slotPaths]) hpre, ?_⟩
      rcases List.mem_append.1 hm with hm | hm
      · exact .inl (by rw [(Prod.mk.inj (List.mem_singleton.1 hm)).1])
      · exact .inr ⟨path, hm, fun e he => hkeep e (List.mem_append_right _ he)⟩
    · rintro ⟨hkm, hg⟩
      have hcons : ∀ e ∈ slotPaths token (some m) o, e = (m, [token]) ∨
          e ∈ o.paths.map (under token) := fun e he => by simpa [slotPaths] using he
      rcases hg with hg | ⟨path, hm, hkeep⟩
      · cases hg
        refine ⟨[token], by simp [slotPaths], fun e he hpre => ?_⟩
        rcases hcons e he with rfl | he
        · exact hkm
        · obtain ⟨e', he', rfl⟩ := List.mem_map.1 he
          have hnil := List.prefix_nil.1 (List.cons_prefix_cons.1 hpre).2
          exact absurd hnil (ne_nil_of_mem_paths he')
      · refine ⟨path, List.mem_append_right _ hm, fun e he hpre => ?_⟩
        rcases hcons e he with rfl | he
        · exact hkm
        · exact hkeep e he hpre

theorem mem_slotPaths_fst {token : String} {mark : Option String} {o : Opening} :
    g ∈ (slotPaths token mark o).map Prod.fst ↔ mark = some g ∨ g ∈ o.paths.map Prod.fst := by
  cases mark <;> simp [slotPaths, under, eq_comm]

theorem ne_nil_of_mem_cellPaths {i : Nat} {cells : List (Cell Opening)} :
    ∀ e ∈ cellPaths i cells, e.2 ≠ [] := by
  intro e he
  obtain ⟨j, q, -, hq⟩ := cons_of_mem_cellPaths he
  simp [hq]

theorem ne_nil_of_mem_memberPaths {members : List (String × Option String × Opening)} :
    ∀ e ∈ markPaths members ++ memberPaths members, e.2 ≠ [] := by
  intro e he
  obtain ⟨k, -, q, hq⟩ := cons_of_mem_memberPaths he
  simp [hq]

end Kept

section Opens
variable {D : String → Concealed → Prop} {H : String → Prop} (keep : String → Bool) (g : String)

mutual

theorem mem_paths_prune (o : Opening) {v : Value} (h : Opens D H o v) :
    g ∈ (prune keep o).paths.map Prod.fst ↔ Kept keep o.paths g := by
  cases o with
  | leaf u => simp [prune, paths, Kept]
  | array cells =>
    obtain ⟨items, rfl, hitems⟩ := h
    exact mem_cellPaths_prune cells hitems 0 0
  | object withheld members =>
    obtain ⟨ms, ds, slots, -, -, -, hasc, -, -, hmembers⟩ := h
    apply mem_memberPaths_prune members hmembers
    rw [← names_of_opensMembers hmembers]
    exact Members.nodup_names hasc

theorem mem_cellPaths_prune (cells : List (Cell Opening)) {items : List Value}
    (h : OpensItems D H cells items) (i j : Nat) :
    g ∈ (cellPaths i (pruneCells keep cells)).map Prod.fst ↔ Kept keep (cellPaths j cells) g := by
  cases cells with
  | nil => simp [pruneCells, cellPaths, Kept]
  | cons cell r =>
    cases cell with
    | clear o =>
      obtain ⟨v, rest, -, -, ho, hr⟩ := h
      rw [pruneCells, cellPaths_clear, cellPaths_clear, List.map_append, List.mem_append,
        mem_slotPaths_fst, kept_slotPaths_append ne_nil_of_mem_cellPaths
          head?_ne_of_mem_cellPaths, kept_slotPaths, mem_paths_prune o ho,
        mem_cellPaths_prune r hr (i + 1) (j + 1)]
      simp
    | disclosed m o =>
      obtain ⟨v, rest, -, -, ⟨u, -, ho⟩, hr⟩ := h
      rw [pruneCells, cellPaths_disclosed, kept_slotPaths_append ne_nil_of_mem_cellPaths
        head?_ne_of_mem_cellPaths, kept_slotPaths]
      by_cases hm : keep m = true
      · rw [if_pos hm, cellPaths_disclosed, List.map_append, List.mem_append, mem_slotPaths_fst,
          mem_paths_prune o ho, mem_cellPaths_prune r hr (i + 1) (j + 1)]
        simp [hm]
      · rw [if_neg hm, cellPaths, mem_cellPaths_prune r hr i (j + 1)]
        simp [hm]
    | withheld m =>
      obtain ⟨v, rest, -, -, -, hr⟩ := h
      exact mem_cellPaths_prune r hr i j

theorem mem_memberPaths_prune (members : List (String × Option String × Opening))
    {slots : List (String × Option String × Value)} (h : OpensMembers D H members slots)
    (hn : (Members.names members).Nodup) :
    g ∈ (markPaths (pruneMembers keep members) ++ memberPaths (pruneMembers keep members)).map
        Prod.fst ↔ Kept keep (markPaths members ++ memberPaths members) g := by
  cases members with
  | nil => simp [pruneMembers, markPaths, memberPaths, Kept]
  | cons m r =>
    obtain ⟨k, mark, o⟩ := m
    obtain ⟨v, rest, -, -, ho, hr⟩ := h
    obtain ⟨hk, hn⟩ := List.nodup_cons.1 hn
    rw [kept_congr fun e => (perm_paths_cons k mark o r).mem_iff, kept_slotPaths_append
      ne_nil_of_mem_memberPaths (head?_ne_of_mem_memberPaths hk), kept_slotPaths,
      ← mem_memberPaths_prune r hr hn, ← mem_paths_prune o ho, pruneMembers]
    by_cases hm : mark.all keep = true
    · rw [if_pos hm, ((perm_paths_cons k mark _ _).map _).mem_iff, List.map_append,
        List.mem_append, mem_slotPaths_fst]
      simp [hm]
    · rw [if_neg hm]
      simp [hm]

end

end Opens

/-! ## Value of a pruned tree -/

def Gone (keep : String → Bool) (es : List (String × List String)) (path : List String) : Prop :=
  ∃ e ∈ es, e.2 = path ∧ keep e.1 = false

section Gone
variable {keep : String → Bool} {path : List String}

theorem gone_slotPaths_append {token : String} {mark : Option String} {o : Opening}
    {es : List (String × List String)} (h : ∀ e ∈ es, e.2.head? ≠ some token) :
    Gone keep (slotPaths token mark o ++ es) (token :: path) ↔
      Gone keep (slotPaths token mark o) (token :: path) := by
  constructor
  · rintro ⟨e, he, hp, hk⟩
    rcases List.mem_append.1 he with he | he
    · exact ⟨e, he, hp, hk⟩
    · exact absurd (by rw [hp]; rfl) (h e he)
  · rintro ⟨e, he, hp, hk⟩
    exact ⟨e, List.mem_append_left _ he, hp, hk⟩

theorem gone_slotPaths_append_of_ne {token k : String} {mark : Option String} {o : Opening}
    {es : List (String × List String)} (h : token ≠ k) :
    Gone keep (slotPaths token mark o ++ es) (k :: path) ↔ Gone keep es (k :: path) := by
  constructor
  · rintro ⟨e, he, hp, hk⟩
    rcases List.mem_append.1 he with he | he
    · obtain ⟨q, hq⟩ := cons_of_mem_slotPaths he
      exact absurd (List.cons.inj (hq.symm.trans hp)).1 h
    · exact ⟨e, he, hp, hk⟩
  · rintro ⟨e, he, hp, hk⟩
    exact ⟨e, List.mem_append_right _ he, hp, hk⟩

theorem gone_slotPaths_self {token : String} {mark : Option String} {o : Opening} :
    Gone keep (slotPaths token mark o) [token] ↔ mark.all keep = false := by
  constructor
  · rintro ⟨e, he, hp, hk⟩
    rcases List.mem_append.1 he with he | he
    · cases mark with
      | none => cases he
      | some m =>
        rw [List.mem_singleton.1 he] at hk
        exact hk
    · obtain ⟨e', he', rfl⟩ := List.mem_map.1 he
      exact absurd (List.cons.inj hp).2 (ne_nil_of_mem_paths he')
  · intro hm
    cases mark with
    | none => cases hm
    | some m => exact ⟨(m, [token]), by simp [slotPaths], rfl, hm⟩

theorem gone_slotPaths_cons {token : String} {mark : Option String} {o : Opening}
    (hne : path ≠ []) :
    Gone keep (slotPaths token mark o) (token :: path) ↔ Gone keep o.paths path := by
  constructor
  · rintro ⟨e, he, hp, hk⟩
    rcases List.mem_append.1 he with he | he
    · cases mark with
      | none => cases he
      | some m =>
        rw [List.mem_singleton.1 he] at hp
        exact absurd (List.cons.inj hp).2.symm hne
    · obtain ⟨e', he', rfl⟩ := List.mem_map.1 he
      exact ⟨e', he', (List.cons.inj hp).2, hk⟩
  · rintro ⟨e, he, rfl, hk⟩
    exact ⟨under token e, List.mem_append_right _ (List.mem_map.2 ⟨e, he, rfl⟩), rfl, hk⟩

theorem gone_slot {gone : List String → Bool} {token : String} {mark : Option String}
    {o : Opening} {es : List (String × List String)} (h : ∀ e ∈ es, e.2.head? ≠ some token)
    (hgone : ∀ q, gone (token :: q) = true ↔
      Gone keep (slotPaths token mark o ++ es) (token :: q)) :
    (gone [token] = true ↔ mark.all keep = false) ∧
      ∀ q, q ≠ [] → (gone (token :: q) = true ↔ Gone keep o.paths q) := by
  refine ⟨?_, fun q hq => ?_⟩
  · rw [hgone, gone_slotPaths_append h, gone_slotPaths_self]
  · rw [hgone, gone_slotPaths_append h, gone_slotPaths_cons hq]

end Gone

section Opens
variable {D : String → Concealed → Prop} {H : String → Prop} {keep : String → Bool}

mutual

theorem value_prune (o : Opening) {v : Value} (h : Opens D H o v) {gone : List String → Bool}
    (hgone : ∀ q, q ≠ [] → (gone q = true ↔ Gone keep o.paths q)) :
    (prune keep o).value = o.value.without gone := by
  cases o with
  | leaf u =>
    obtain ⟨rfl, hs⟩ := h
    exact (Value.without_of_isScalar gone hs).symm
  | array cells =>
    obtain ⟨items, rfl, hitems⟩ := h
    rw [prune, value, value, Value.without]
    exact congrArg Value.array
      (cellValues_prune cells hitems 0 fun j _ q => hgone _ (List.cons_ne_nil _ q))
  | object withheld members =>
    obtain ⟨ms, ds, slots, -, -, -, hasc, -, -, hmembers⟩ := h
    have hn : (Members.names members).Nodup := by
      rw [← names_of_opensMembers hmembers]
      exact Members.nodup_names hasc
    rw [prune, value, value, Value.without]
    exact congrArg Value.object
      (memberValues_prune members hmembers hn fun k _ q => hgone _ (List.cons_ne_nil k q))

theorem cellValues_prune (cells : List (Cell Opening)) {items : List Value}
    (h : OpensItems D H cells items) (i : Nat) {gone : List String → Bool}
    (hgone : ∀ j, i ≤ j → ∀ q, gone (Pointer.indexText j :: q) = true ↔
      Gone keep (cellPaths i cells) (Pointer.indexText j :: q)) :
    cellValues (pruneCells keep cells) = Value.withoutItems gone i (cellValues cells) := by
  cases cells with
  | nil => rfl
  | cons cell r =>
    have hne (j : Nat) (hj : i + 1 ≤ j) : Pointer.indexText i ≠ Pointer.indexText j :=
      fun heq => absurd (Pointer.indexText_injective heq) (by omega)
    cases cell with
    | clear o =>
      obtain ⟨v, rest, -, -, ho, hr⟩ := h
      rw [cellPaths_clear] at hgone
      obtain ⟨hself, hbelow⟩ := gone_slot head?_ne_of_mem_cellPaths (hgone i (Nat.le_refl i))
      have hstay : ¬gone [Pointer.indexText i] = true := by rw [hself]; simp
      rw [pruneCells, cellValues, cellValues, Value.withoutItems, if_neg hstay,
        value_prune o ho hbelow, cellValues_prune r hr (i + 1) fun j hj q => by
          rw [hgone j (by omega), gone_slotPaths_append_of_ne (hne j hj)]]
    | disclosed g o =>
      obtain ⟨v, rest, -, -, ⟨u, -, ho⟩, hr⟩ := h
      rw [cellPaths_disclosed] at hgone
      obtain ⟨hself, hbelow⟩ := gone_slot head?_ne_of_mem_cellPaths (hgone i (Nat.le_refl i))
      have hrest := cellValues_prune r hr (i + 1) fun j hj q => by
        rw [hgone j (by omega), gone_slotPaths_append_of_ne (hne j hj)]
      rw [pruneCells, cellValues, Value.withoutItems]
      by_cases hg : keep g = true
      · have hstay : ¬gone [Pointer.indexText i] = true := by rw [hself]; simp [hg]
        rw [if_pos hg, if_neg hstay, cellValues, value_prune o ho hbelow, hrest]
      · have hleave : gone [Pointer.indexText i] = true := by rw [hself]; simpa using hg
        rw [if_neg hg, if_pos hleave, cellValues, hrest]
    | withheld g =>
      obtain ⟨v, rest, -, -, -, hr⟩ := h
      exact cellValues_prune r hr i hgone

theorem memberValues_prune (members : List (String × Option String × Opening))
    {slots : List (String × Option String × Value)} (h : OpensMembers D H members slots)
    (hn : (Members.names members).Nodup) {gone : List String → Bool}
    (hgone : ∀ k ∈ Members.names members, ∀ q, gone (k :: q) = true ↔
      Gone keep (markPaths members ++ memberPaths members) (k :: q)) :
    memberValues (pruneMembers keep members) =
      Value.withoutMembers gone (memberValues members) := by
  cases members with
  | nil => rfl
  | cons m r =>
    obtain ⟨k, mark, o⟩ := m
    obtain ⟨v, rest, -, -, ho, hr⟩ := h
    obtain ⟨hk, hn⟩ := List.nodup_cons.1 hn
    have hgone' : ∀ j ∈ Members.names ((k, mark, o) :: r), ∀ q, gone (j :: q) = true ↔
        Gone keep (slotPaths k mark o ++ (markPaths r ++ memberPaths r)) (j :: q) := by
      intro j hj q
      rw [hgone j hj, Gone, Gone]
      simp only [(perm_paths_cons k mark o r).mem_iff]
    obtain ⟨hself, hbelow⟩ := gone_slot (head?_ne_of_mem_memberPaths hk)
      (hgone' k (by simp [Members.names]))
    have hne (j : String) (hj : j ∈ Members.names r) : k ≠ j := fun heq => hk (heq ▸ hj)
    have hrest := memberValues_prune r hr hn fun j hj q => by
      rw [hgone' j (List.mem_cons_of_mem _ hj), gone_slotPaths_append_of_ne (hne j hj)]
    rw [pruneMembers, memberValues, Value.withoutMembers]
    by_cases hm : mark.all keep = true
    · have hstay : ¬gone [k] = true := by rw [hself]; simp [hm]
      rw [if_pos hm, if_neg hstay, memberValues, value_prune o ho hbelow, hrest]
    · have hleave : gone [k] = true := by rw [hself]; simpa using hm
      rw [if_neg hm, if_pos hleave, hrest]

end

end Opens

end Reveal.Opening

end SelectiveDisclosure
