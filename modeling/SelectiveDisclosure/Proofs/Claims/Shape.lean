import SelectiveDisclosure.Proofs.Claims.Writing
import SelectiveDisclosure.Proofs.Json.Parts

/-!
# The shape of concealed values

A concealed value is seen beside the value before, together with the entries concealed in it, the
disclosures with the paths to what they conceal. An object holds the digests of its concealed
members among decoys, a concealed item has left a placeholder, and everything else stands as it was.
Concealing at one more place adds one entry. What is taken out of the value keeps the entries inside
it.
-/

set_option autoImplicit false

namespace SelectiveDisclosure

open Json Reveal

/-- A disclosure behind the path to what it conceals. -/
abbrev Entry := List String × Disclosure

/-! ## Entries -/

namespace Entry

/-- The entries whose paths begin with the token, as they are seen from there. -/
def inside (token : String) (es : List Entry) : List Entry :=
  es.filterMap fun e => match e.1 with
    | [] => none
    | t :: path => if t = token then some (path, e.2) else none

def insideAll : List String → List Entry → List Entry
  | [], es => es
  | token :: path, es => insideAll path (inside token es)

/-- The entries inside the value at the path, without that of the value itself. -/
def below (path : List String) (es : List Entry) : List Entry :=
  (insideAll path es).filter fun e => !e.1.isEmpty

def ofObject (path : List String) (es : List Entry) : List Disclosure :=
  es.filterMap fun e => if e.1 ≠ [] ∧ e.1.dropLast = path then some e.2 else none

def zip (ps : List Pointer) (ds : List Disclosure) : List Entry :=
  (ps.map Pointer.decoded).zip ds

variable {token : String} {path rel : List String} {es es' : List Entry} {d : Disclosure}

theorem mem_inside_iff : (path, d) ∈ inside token es ↔ (token :: path, d) ∈ es := by
  rw [inside, List.mem_filterMap]
  constructor
  · rintro ⟨⟨q, d'⟩, hm, heq⟩
    cases q with
    | nil => cases heq
    | cons t q =>
      by_cases ht : t = token
      · simp only [ht, if_true, Option.some.injEq, Prod.mk.injEq] at heq
        rw [← heq.1, ← heq.2, ← ht]
        exact hm
      · simp [ht] at heq
  · exact fun hm => ⟨_, hm, by simp⟩

theorem mem_insideAll_iff : (rel, d) ∈ insideAll path es ↔ (path ++ rel, d) ∈ es := by
  induction path generalizing es with
  | nil => exact Iff.rfl
  | cons token path ih => rw [insideAll, ih, mem_inside_iff, List.cons_append]

theorem mem_below_iff : (rel, d) ∈ below path es ↔ (path ++ rel, d) ∈ es ∧ rel ≠ [] := by
  rw [below, List.mem_filter, mem_insideAll_iff]
  simp

theorem inside_append : inside token (es ++ es') = inside token es ++ inside token es' :=
  List.filterMap_append

theorem inside_append_self :
    inside token (es ++ [(token :: path, d)]) = inside token es ++ [(path, d)] := by
  rw [inside_append]
  simp [inside]

theorem inside_append_of_ne {t : String} (h : t ≠ token) :
    inside token (es ++ [(t :: path, d)]) = inside token es := by
  rw [inside_append]
  simp [inside, h]

theorem insideAll_append :
    insideAll path (es ++ es') = insideAll path es ++ insideAll path es' := by
  induction path generalizing es es' with
  | nil => rfl
  | cons token path ih => rw [insideAll, inside_append, ih, insideAll, insideAll]

theorem insideAll_eq_nil (h : ∀ e ∈ es, ¬path <+: e.1) : insideAll path es = [] := by
  rw [List.eq_nil_iff_forall_not_mem]
  rintro ⟨rel, d⟩ hm
  exact h _ (mem_insideAll_iff.1 hm) (List.prefix_append path rel)

theorem below_append_cons (hes : ∀ e ∈ insideAll path es, e.1 ≠ [])
    (hes' : ∀ e ∈ es', ¬path <+: e.1) :
    below path (es ++ (path, d) :: es') = insideAll path es := by
  have hself : insideAll path [(path, d)] = [([], d)] := by
    clear hes hes'
    induction path with
    | nil => rfl
    | cons token path ih =>
      rw [insideAll, ← List.nil_append [(token :: path, d)], inside_append_self]
      exact ih
  rw [below, List.append_cons, insideAll_append, insideAll_append, insideAll_eq_nil hes', hself,
    List.append_nil, List.filter_append, List.filter_eq_self.2]
  · simp
  · intro e he
    simpa using hes e he

theorem ofObject_append : ofObject path (es ++ es') = ofObject path es ++ ofObject path es' :=
  List.filterMap_append

theorem ofObject_nil_append_cons {t : String} (hne : rel ≠ []) :
    ofObject [] (es ++ [(t :: rel, d)]) = ofObject [] es := by
  rw [ofObject_append]
  cases rel with
  | nil => exact absurd rfl hne
  | cons s rel => simp [ofObject]

theorem ofObject_inside : ofObject path (inside token es) = ofObject (token :: path) es := by
  rw [ofObject, inside, List.filterMap_filterMap, ofObject]
  congr 1
  funext ⟨q, d⟩
  cases q with
  | nil => simp
  | cons t q =>
    by_cases ht : t = token
    · cases q <;> simp [ht]
    · cases q <;> simp [ht]

theorem ofObject_insideAll : ofObject rel (insideAll path es) = ofObject (path ++ rel) es := by
  induction path generalizing es with
  | nil => rfl
  | cons token path ih => rw [insideAll, ih, ofObject_inside, List.cons_append]

theorem ofObject_below : ofObject rel (below path es) = ofObject (path ++ rel) es := by
  rw [← ofObject_insideAll, below, ofObject, ofObject, List.filterMap_filter]
  congr 1
  funext ⟨q, d⟩
  cases q <;> simp

theorem mem_ofObject_iff : d ∈ ofObject path es ↔ ∃ name, (path ++ [name], d) ∈ es := by
  rw [ofObject, List.mem_filterMap]
  constructor
  · rintro ⟨⟨q, d'⟩, hm, heq⟩
    split at heq
    · next hq =>
      obtain ⟨hne, rfl⟩ := hq
      cases heq
      refine ⟨q.getLast hne, ?_⟩
      rwa [List.dropLast_append_getLast]
    · cases heq
  · rintro ⟨name, hm⟩
    exact ⟨_, hm, by simp⟩

theorem map_snd_zip {ps : List Pointer} {ds : List Disclosure} (h : ds.length = ps.length) :
    (zip ps ds).map Prod.snd = ds :=
  List.map_snd_zip (by rw [List.length_map, h])

end Entry

/-! ## Digests in an object -/

namespace Concealer
variable {c : Concealer}

def decoyDigests (c : Concealer) (draw : Nat) : List String :=
  (List.range c.decoys).map fun i => c.digest (Octets.ofText (c.salt (draw + i)))

/-- The members hold the digests of the disclosures, and no others but the decoys that came with
the first of them. -/
def Bears (c : Concealer) (ds : List Disclosure) (ms : Members) : Prop :=
  ds = [] ∧ Digests.membersName ∉ Members.names ms ∨
    ds ≠ [] ∧ ∃ (draw : Nat) (texts : List String),
      Members.get? ms Digests.membersName = some (.array (texts.map .string)) ∧
      texts.Pairwise (fun s t => ¬t < s) ∧
      texts.Perm (c.decoyDigests draw ++ ds.map fun d => c.digest d.encoded)

theorem pairwise_insertDigest {g : String} {texts texts' : List String}
    (h : insertDigest g (texts.map .string) = texts'.map .string)
    (hsorted : texts.Pairwise fun s t => ¬t < s) : texts'.Pairwise fun s t => ¬t < s := by
  induction texts generalizing texts' with
  | nil =>
    rw [List.map_nil, insertDigest, ← List.map_singleton] at h
    rw [← List.map_injective_iff.2 (fun _ _ => Value.string.inj) h]
    exact List.pairwise_singleton _ _
  | cons s r ih =>
    obtain ⟨hs, hr⟩ := List.pairwise_cons.1 hsorted
    rw [List.map_cons, insertDigest] at h
    by_cases hlt : s < g
    · obtain ⟨r', hr', hperm⟩ := insertDigest_strings g r
      simp only [hlt, if_true, hr', ← List.map_cons] at h
      rw [← List.map_injective_iff.2 (fun _ _ => Value.string.inj) h]
      refine List.pairwise_cons.2 ⟨fun t ht => ?_, ih hr' hr⟩
      rcases List.mem_cons.1 (hperm.mem_iff.1 ht) with rfl | ht
      · exact fun hts => String.lt_irrefl t (String.lt_trans hts hlt)
      · exact hs t ht
    · simp only [hlt, if_false, ← List.map_cons] at h
      rw [← List.map_injective_iff.2 (fun _ _ => Value.string.inj) h]
      refine List.pairwise_cons.2 ⟨fun t ht => ?_, hsorted⟩
      rcases List.mem_cons.1 ht with rfl | ht
      · exact hlt
      · intro htg
        rcases Std.lt_trichotomy s g with h | rfl | h
        · exact hlt h
        · exact hs t ht htg
        · exact hs t ht (String.lt_trans htg h)

theorem pairwise_sortedDigests {texts texts' : List String}
    (h : sortedDigests (texts.map .string) = texts'.map .string) :
    texts'.Pairwise fun s t => ¬t < s := by
  induction texts generalizing texts' with
  | nil =>
    rw [List.map_nil, sortedDigests, List.foldr_nil, ← List.map_nil] at h
    rw [← List.map_injective_iff.2 (fun _ _ => Value.string.inj) h]
    exact List.Pairwise.nil
  | cons s r ih =>
    obtain ⟨r', hr', -⟩ := sortedDigests_strings r
    rw [List.map_cons, sortedDigests, List.foldr_cons, ← sortedDigests, hr'] at h
    exact pairwise_insertDigest h (ih hr')

theorem exists_addDigest {ds : List Disclosure} {ms : Members} (h : c.Bears ds ms)
    (d : Disclosure) (draw : Nat) :
    ∃ (texts : List String) (draw' : Nat), c.addDigest (c.digest d.encoded) ms draw =
        (Members.insert Digests.membersName (.array (texts.map .string)) ms, draw') ∧
      c.Bears (ds ++ [d])
        (Members.insert Digests.membersName (.array (texts.map .string)) ms) := by
  have hbears (draw₀ : Nat) {old texts : List String}
      (htexts : sortedDigests ((old ++ [c.digest d.encoded]).map .string) = texts.map .string)
      (hperm : texts.Perm (old ++ [c.digest d.encoded]))
      (hold : old.Perm (c.decoyDigests draw₀ ++ ds.map fun d => c.digest d.encoded)) :
      c.Bears (ds ++ [d])
        (Members.insert Digests.membersName (.array (texts.map .string)) ms) := by
    refine .inr ⟨by simp, draw₀, texts, Members.get?_insert_self, pairwise_sortedDigests htexts, ?_⟩
    rw [List.map_append, ← List.append_assoc]
    exact hperm.trans (hold.append_right _)
  rcases h with ⟨rfl, habsent⟩ | ⟨-, draw₀, before, hget, -, hbefore⟩
  · have hnone := Members.get?_eq_none_iff.2 habsent
    obtain ⟨old, texts, draw', hadd, htexts, hperm, hold⟩ := addDigest_cases (c := c)
      (digestTexts?_eq_some_iff.2 (.inl ⟨hnone, rfl⟩)) (c.digest d.encoded) draw
    refine ⟨texts, draw', hadd, hbears draw htexts hperm ?_⟩
    rcases hold with ⟨-, rfl⟩ | ⟨hsome, -⟩
    · rw [List.map_nil, List.append_nil]
      exact List.Perm.refl _
    · rw [hnone] at hsome
      cases hsome
  · obtain ⟨old, texts, draw', hadd, htexts, hperm, hold⟩ := addDigest_cases (c := c)
      (digestTexts?_eq_some_iff.2 (.inr hget)) (c.digest d.encoded) draw
    refine ⟨texts, draw', hadd, hbears draw₀ htexts hperm ?_⟩
    rcases hold with ⟨hnone, -⟩ | ⟨-, rfl⟩
    · rw [hget] at hnone
      cases hnone
    · exact hbefore

theorem Bears.congr {ds : List Disclosure} {ms ms' : Members} (h : c.Bears ds ms)
    (hget : Members.get? ms' Digests.membersName = Members.get? ms Digests.membersName) :
    c.Bears ds ms' := by
  rcases h with ⟨hds, habsent⟩ | ⟨hds, draw, texts, htexts, hrest⟩
  · refine .inl ⟨hds, Members.get?_eq_none_iff.1 ?_⟩
    rw [hget, Members.get?_eq_none_iff.2 habsent]
  · exact .inr ⟨hds, draw, texts, hget.trans htexts, hrest⟩

theorem Bears.eq_texts {ds : List Disclosure} {ms : Members} {v : Value} (h : c.Bears ds ms)
    (hasc : Members.Ascending ms) (hm : (Digests.membersName, v) ∈ ms) :
    ∃ texts : List String, v = .array (texts.map .string) := by
  rcases h with ⟨-, habsent⟩ | ⟨-, draw, texts, hget, -⟩
  · exact absurd (Members.mem_names_of_mem hm) habsent
  · rw [Members.get?_of_mem hasc hm] at hget
    exact ⟨texts, Option.some.inj hget⟩

end Concealer

/-! ## Concealed values -/

mutual

/-- The second value is what is left of the first when the entries are concealed in it. Each entry
leads to an item or a member that has been concealed or still stands. -/
def Shaped (c : Concealer) : List Entry → Value → Value → Prop
  | es, before, .array items => ∃ items₀, before = .array items₀ ∧
      (∀ e ∈ es, ∃ i path, e.1 = Pointer.indexText i :: path ∧ i < items.length) ∧
      ShapedItems c es 0 items₀ items
  | es, before, .object ms => ∃ ms₀, before = .object ms₀ ∧ Members.Ascending ms ∧
      Payload.algorithmName ∉ Members.names ms ∧ Digests.placeholderName ∉ Members.names ms ∧
      c.Bears (Entry.ofObject [] es) ms ∧
      (∀ e ∈ es, ∃ name path, e.1 = name :: path ∧
        ((∃ d, ([name], d) ∈ es) ∨ name ∈ Members.names ms)) ∧
      ShapedMembers c es ms₀ ms
  | es, before, v => before = v ∧ es = []

def ShapedItems (c : Concealer) : List Entry → Nat → List Value → List Value → Prop
  | _, _, items₀, [] => items₀ = []
  | es, i, items₀, v :: r => ∃ v₀ r₀, items₀ = v₀ :: r₀ ∧
      ((∃ d, ([Pointer.indexText i], d) ∈ es ∧ d.concealed.name? = none ∧
        v = Digests.placeholder (c.digest d.encoded)) ∨
          Shaped c (Entry.inside (Pointer.indexText i) es) v₀ v) ∧ ShapedItems c es (i + 1) r₀ r

def ShapedMembers (c : Concealer) : List Entry → Members → List (String × Value) → Prop
  | _, _, [] => True
  | es, ms₀, (k, v) :: r =>
    (k = Digests.membersName ∨
      ∃ v₀, Members.get? ms₀ k = some v₀ ∧ Shaped c (Entry.inside k es) v₀ v) ∧
        ShapedMembers c es ms₀ r

end

section Shaped
variable {c : Concealer} {es : List Entry}

def ShapedItem (c : Concealer) (es : List Entry) (i : Nat) (v₀ v : Value) : Prop :=
  (∃ d, ([Pointer.indexText i], d) ∈ es ∧ d.concealed.name? = none ∧
    v = Digests.placeholder (c.digest d.encoded)) ∨
      Shaped c (Entry.inside (Pointer.indexText i) es) v₀ v

theorem shapedItems_iff {i : Nat} {items₀ items : List Value} :
    ShapedItems c es i items₀ items ↔ items₀.length = items.length ∧
      ∀ j v₀ v, items₀[j]? = some v₀ → items[j]? = some v → ShapedItem c es (i + j) v₀ v := by
  induction items generalizing i items₀ with
  | nil => simp [ShapedItems]
  | cons v r ih =>
    cases items₀ with
    | nil => simp [ShapedItems]
    | cons v₀ r₀ =>
      rw [List.length_cons, List.length_cons, Nat.add_right_cancel_iff]
      constructor
      · rintro ⟨_, _, heq, hv, hr⟩
        obtain ⟨rfl, rfl⟩ := List.cons.inj heq
        obtain ⟨hlen, hr⟩ := ih.1 hr
        refine ⟨hlen, fun j u₀ u hj₀ hj => ?_⟩
        cases j with
        | zero =>
          cases hj₀
          cases hj
          exact hv
        | succ j =>
          have hu := hr j u₀ u hj₀ hj
          rwa [Nat.add_right_comm, Nat.add_assoc] at hu
      · rintro ⟨hlen, h⟩
        refine ⟨v₀, r₀, rfl, h 0 v₀ v rfl rfl, ih.2 ⟨hlen, fun j u₀ u hj₀ hj => ?_⟩⟩
        have hu := h (j + 1) u₀ u hj₀ hj
        rwa [← Nat.add_assoc, Nat.add_right_comm] at hu

theorem shaped_array_iff {before : Value} {items : List Value} :
    Shaped c es before (.array items) ↔ ∃ items₀, before = .array items₀ ∧
      items₀.length = items.length ∧
      (∀ e ∈ es, ∃ i path, e.1 = Pointer.indexText i :: path ∧ i < items.length) ∧
      ∀ i v₀ v, items₀[i]? = some v₀ → items[i]? = some v → ShapedItem c es i v₀ v := by
  rw [Shaped]
  simp only [shapedItems_iff, Nat.zero_add]
  exact exists_congr fun items₀ => and_congr_right fun _ => and_left_comm

theorem shapedMembers_iff {ms₀ ms : Members} :
    ShapedMembers c es ms₀ ms ↔ ∀ k v, (k, v) ∈ ms → k = Digests.membersName ∨
      ∃ v₀, Members.get? ms₀ k = some v₀ ∧ Shaped c (Entry.inside k es) v₀ v := by
  induction ms with
  | nil => simp [ShapedMembers]
  | cons m r ih =>
    obtain ⟨k, v⟩ := m
    rw [ShapedMembers, ih]
    constructor
    · rintro ⟨hv, hr⟩ k' v' hm
      rcases List.mem_cons.1 hm with heq | hm
      · cases heq
        exact hv
      · exact hr k' v' hm
    · exact fun h => ⟨h k v List.mem_cons_self, fun k' v' hm => h k' v' (List.mem_cons_of_mem _ hm)⟩

theorem ne_nil_of_shaped {v₀ v : Value} (h : Shaped c es v₀ v) : ∀ e ∈ es, e.1 ≠ [] := by
  intro e he hnil
  cases v with
  | array items =>
    obtain ⟨-, -, hentries, -⟩ := h
    obtain ⟨i, path, heq, -⟩ := hentries e he
    rw [hnil] at heq
    cases heq
  | object ms =>
    obtain ⟨-, -, -, -, -, -, hentries, -⟩ := h
    obtain ⟨name, path, heq, -⟩ := hentries e he
    rw [hnil] at heq
    cases heq
  | _ =>
    have hes : es = [] := h.2
    rw [hes] at he
    cases he

theorem shaped_of_reservedIn? {v : Value} (hs : Value.Sorted v)
    (hfree : Conceal.reservedIn? v = none) : Shaped c [] v v := by
  induction v using Value.induct with
  | scalar v hv =>
    cases v with
    | array items => cases hv
    | object ms => cases hv
    | _ => exact ⟨rfl, rfl⟩
  | array items ih =>
    rw [Value.sorted_array_iff] at hs
    rw [Conceal.reservedIn?, Conceal.reservedInItems?_eq_none_iff] at hfree
    refine shaped_array_iff.2 ⟨items, rfl, rfl, fun e he => absurd he List.not_mem_nil,
      fun i v₀ v hi₀ hi => .inr ?_⟩
    obtain rfl := Option.some.inj (hi₀.symm.trans hi)
    have hv := List.mem_of_getElem? hi
    exact ih _ hv (hs _ hv) (hfree _ hv)
  | object ms ih =>
    rw [Value.sorted_object_iff] at hs
    rw [Conceal.reservedIn?, Conceal.reservedInMembers?_eq_none_iff] at hfree
    have habsent {name : String} : isReserved name = true → name ∉ Members.names ms :=
      Conceal.notMem_names_of_isReserved fun m hm => (hfree m hm).1
    refine ⟨ms, rfl, hs.1, habsent rfl, habsent rfl, .inl ⟨rfl, habsent rfl⟩,
      fun e he => absurd he List.not_mem_nil, shapedMembers_iff.2 fun k v hm => .inr ?_⟩
    exact ⟨v, Members.get?_of_mem hs.1 hm, ih _ hm (hs.2 _ hm) (hfree _ hm).2⟩

theorem numbersReadBack_of_shaped {v₀ v : Value} (h : Shaped c es v₀ v)
    (h₀ : v₀.NumbersReadBack) : v.NumbersReadBack := by
  induction v using Value.induct generalizing es v₀ with
  | scalar v hv =>
    cases v with
    | array items => cases hv
    | object ms => cases hv
    | _ => exact h.1 ▸ h₀
  | array items ih =>
    obtain ⟨items₀, rfl, hlen, -, hitems⟩ := shaped_array_iff.1 h
    rw [Value.NumbersReadBack, Value.itemsReadBack_iff] at h₀ ⊢
    intro v hv
    obtain ⟨i, hi⟩ := List.mem_iff_getElem?.1 hv
    have hlt : i < items₀.length := hlen ▸ (List.getElem?_eq_some_iff.1 hi).1
    have hi₀ := List.getElem?_eq_getElem hlt
    rcases hitems i _ v hi₀ hi with ⟨d, -, -, rfl⟩ | hshaped
    · exact ⟨trivial, trivial⟩
    · exact ih v hv hshaped (h₀ _ (List.mem_of_getElem? hi₀))
  | object ms ih =>
    obtain ⟨ms₀, rfl, hasc, -, -, hbears, -, hmembers⟩ := h
    rw [Value.NumbersReadBack, Value.membersReadBack_iff] at h₀ ⊢
    rintro ⟨k, v⟩ hm
    rcases shapedMembers_iff.1 hmembers k v hm with rfl | ⟨v₀, hget, hshaped⟩
    · obtain ⟨texts, rfl⟩ := hbears.eq_texts hasc hm
      rw [Value.NumbersReadBack, Value.itemsReadBack_iff]
      intro u hu
      obtain ⟨s, -, rfl⟩ := List.mem_map.1 hu
      trivial
    · exact ih _ hm hshaped (h₀ _ (Members.mem_of_get? hget))

end Shaped

/-! ## One place -/

namespace Concealer
variable {c : Concealer} {es : List Entry} {draw : Nat} {step : Step}

theorem mem_names_insert {α : Type} {ms : List (String × α)} {k name : String} {v : α}
    (h : name ∈ Members.names ms) : name ∈ Members.names (Members.insert k v ms) := by
  by_contra hn
  have hk : name ≠ k := by
    rintro rfl
    rw [← Members.get?_eq_none_iff, Members.get?_insert_self] at hn
    cases hn
  rw [← Members.get?_eq_none_iff, Members.get?_insert_of_ne hk.symm,
    Members.get?_eq_none_iff] at hn
  exact hn h

/-- What is taken out at a path is what stood there, with the entries inside it. -/
def ShapedAt (c : Concealer) (es : List Entry) (before : Value) (path : List String)
    (v : Value) : Prop :=
  ∃ v₀, (path, v₀) ∈ before.parts ∧ Shaped c (Entry.insideAll path es) v₀ v

theorem shaped_concealMember {before : Value} {name : String} {ms : Members}
    (hname : isReserved name = false) (h : c.concealMember name ms draw = some step)
    (hms : Shaped c es before (.object ms)) :
    Shaped c (es ++ [([name], step.disclosure)]) before step.value ∧
      ShapedAt c es before [name] step.disclosure.concealed.value := by
  obtain ⟨hsd, hdots, halg⟩ := ne_of_not_isReserved hname
  obtain ⟨ms₀, rfl, hasc, halgorithm, hplaceholder, hbears, hentries, hmembers⟩ := hms
  rw [shapedMembers_iff] at hmembers
  obtain ⟨v, left, _, hget, hstep, rfl⟩ := concealMember_eq_some_iff.1 h
  have hleft : c.Bears (Entry.ofObject [] es) (Members.erase ms name) :=
    hbears.congr (Members.get?_erase_of_ne hsd)
  obtain ⟨texts, draw', hadd, hbears'⟩ := exists_addDigest hleft
    (Disclosure.ofParts (c.salt draw) (.member name v)) (draw + 1)
  cases hadd.symm.trans hstep
  have hrest {n : String} (hn : n ∈ Members.names (Members.erase ms name)) :
      n ∈ Members.names ms ∧ n ≠ name := by
    obtain ⟨m, hm, rfl⟩ := List.mem_map.1 hn
    obtain ⟨hm, hne⟩ := Members.mem_erase.1 hm
    exact ⟨Members.mem_names_of_mem hm, hne⟩
  obtain ⟨v₀, hget₀, hv⟩ := (hmembers name v (Members.mem_of_get? hget)).resolve_left hsd
  refine ⟨⟨ms₀, rfl, Members.ascending_insert (Members.ascending_erase hasc), ?_, ?_, ?_, ?_,
    shapedMembers_iff.2 ?_⟩, v₀,
    Value.mem_parts_member (Members.mem_of_get? hget₀) (Value.self_mem_parts _), hv⟩
  · exact notMem_names_insert (by decide) fun hn => halgorithm (hrest hn).1
  · exact notMem_names_insert (by decide) fun hn => hplaceholder (hrest hn).1
  · rw [Entry.ofObject_append]
    exact hbears'
  · intro e he
    rcases List.mem_append.1 he with he | he
    · obtain ⟨n, path, heq, hstands⟩ := hentries e he
      refine ⟨n, path, heq, ?_⟩
      by_cases hn : n = name
      · subst hn
        exact .inl ⟨_, List.mem_append_right _ (List.mem_singleton_self _)⟩
      · rcases hstands with ⟨d, hd⟩ | hmem
        · exact .inl ⟨d, List.mem_append_left _ hd⟩
        · obtain ⟨m, hm, rfl⟩ := List.mem_map.1 hmem
          exact .inr (mem_names_insert (Members.mem_names_of_mem (Members.mem_erase.2 ⟨hm, hn⟩)))
    · rw [List.mem_singleton] at he
      subst he
      exact ⟨name, [], rfl, .inl ⟨_, List.mem_append_right _ (List.mem_singleton_self _)⟩⟩
  · intro k u hm
    rcases Members.mem_insert_imp _ hm with heq | hm
    · cases heq
      exact .inl rfl
    · obtain ⟨hm, hne⟩ := Members.mem_erase.1 hm
      rw [Entry.inside_append_of_ne hne.symm]
      exact hmembers k u hm

theorem exists_shapedMember {before : Value} {ms : Members} {name : String} {v : Value}
    (hname : isReserved name = false) (h : Shaped c es before (.object ms))
    (hget : Members.get? ms name = some v) :
    ∃ v₀, Shaped c (Entry.inside name es) v₀ v ∧ ∀ path w, (path, w) ∈ v₀.parts →
      (name :: path, w) ∈ before.parts := by
  obtain ⟨ms₀, rfl, -, -, -, -, -, hmembers⟩ := h
  obtain ⟨v₀, hget₀, hv⟩ := (shapedMembers_iff.1 hmembers name v
    (Members.mem_of_get? hget)).resolve_left (ne_of_not_isReserved hname).1
  exact ⟨v₀, hv, fun path w hw => Value.mem_parts_member (Members.mem_of_get? hget₀) hw⟩

theorem shaped_insert {before : Value} {ms : Members} {name : String} {v v' : Value}
    {path : List String} {d : Disclosure} (hname : isReserved name = false) (hne : path ≠ [])
    (hms : Shaped c es before (.object ms)) (hget : Members.get? ms name = some v)
    (hv' : ∀ v₀, Shaped c (Entry.inside name es) v₀ v →
      Shaped c (Entry.inside name (es ++ [(name :: path, d)])) v₀ v') :
    Shaped c (es ++ [(name :: path, d)]) before (.object (Members.insert name v' ms)) := by
  obtain ⟨hsd, hdots, halg⟩ := ne_of_not_isReserved hname
  obtain ⟨ms₀, rfl, hasc, halgorithm, hplaceholder, hbears, hentries, hmembers⟩ := hms
  rw [shapedMembers_iff] at hmembers
  have hmem := Members.mem_of_get? hget
  refine ⟨ms₀, rfl, Members.ascending_insert hasc, notMem_names_insert halg halgorithm,
    notMem_names_insert hdots hplaceholder, ?_, ?_, shapedMembers_iff.2 ?_⟩
  · rw [Entry.ofObject_nil_append_cons hne]
    exact hbears.congr (Members.get?_insert_of_ne hsd)
  · intro e he
    rcases List.mem_append.1 he with he | he
    · obtain ⟨n, path, heq, hstands⟩ := hentries e he
      refine ⟨n, path, heq, ?_⟩
      rcases hstands with ⟨d, hd⟩ | hn
      · exact .inl ⟨d, List.mem_append_left _ hd⟩
      · exact .inr (mem_names_insert hn)
    · rw [List.mem_singleton.1 he]
      exact ⟨_, _, rfl, .inr (mem_names_insert (Members.mem_names_of_mem hmem))⟩
  · intro k w hm
    by_cases hk : k = name
    · subst hk
      have heq := Members.get?_of_mem (Members.ascending_insert hasc) hm
      rw [Members.get?_insert_self] at heq
      cases heq
      obtain ⟨v₀, hget₀, hv⟩ := (hmembers k v hmem).resolve_left hsd
      exact .inr ⟨v₀, hget₀, hv' v₀ hv⟩
    · rw [Entry.inside_append_of_ne (Ne.symm hk)]
      rcases Members.mem_insert_imp _ hm with heq | hm
      · cases heq
        exact absurd rfl hk
      · exact hmembers k w hm

theorem shapedItem_append_of_ne {i j : Nat} {path : List String} {d : Disclosure} {v₀ v : Value}
    (hne : i ≠ j) (h : ShapedItem c es j v₀ v) :
    ShapedItem c (es ++ [(Pointer.indexText i :: path, d)]) j v₀ v := by
  rcases h with ⟨d', hd', hplaceholder⟩ | hv
  · exact .inl ⟨d', List.mem_append_left _ hd', hplaceholder⟩
  · refine .inr ?_
    rwa [Entry.inside_append_of_ne fun heq => hne (Pointer.indexText_injective heq)]

theorem shaped_set {before : Value} {items : List Value} {i : Nat} {v v' : Value}
    {path : List String} {d : Disclosure} (hitems : Shaped c es before (.array items))
    (hi : items[i]? = some v)
    (hv' : ∀ v₀, ShapedItem c es i v₀ v →
      ShapedItem c (es ++ [(Pointer.indexText i :: path, d)]) i v₀ v') :
    Shaped c (es ++ [(Pointer.indexText i :: path, d)]) before (.array (items.set i v')) := by
  obtain ⟨items₀, rfl, hlen, hentries, hitems⟩ := shaped_array_iff.1 hitems
  have hlt : i < items.length := (List.getElem?_eq_some_iff.1 hi).1
  refine shaped_array_iff.2 ⟨items₀, rfl, ?_, fun e he => ?_, fun j u₀ u hj₀ hj => ?_⟩
  · rw [List.length_set, hlen]
  · rw [List.length_set]
    rcases List.mem_append.1 he with he | he
    · exact hentries e he
    · rw [List.mem_singleton.1 he]
      exact ⟨i, path, rfl, hlt⟩
  · by_cases hne : i = j
    · subst hne
      rw [List.getElem?_set_self hlt] at hj
      cases hj
      exact hv' u₀ (hitems i u₀ v hj₀ hi)
    · rw [List.getElem?_set_ne hne] at hj
      exact shapedItem_append_of_ne hne (hitems j u₀ u hj₀ hj)

theorem exists_shapedItem {before : Value} {items : List Value} {i : Nat} {v : Value}
    (h : Shaped c es before (.array items)) (hi : items[i]? = some v) :
    ∃ v₀, ShapedItem c es i v₀ v ∧ ∀ path w, (path, w) ∈ v₀.parts →
      (Pointer.indexText i :: path, w) ∈ before.parts := by
  obtain ⟨items₀, rfl, hlen, -, hitems⟩ := shaped_array_iff.1 h
  have hlt : i < items₀.length := hlen ▸ (List.getElem?_eq_some_iff.1 hi).1
  have hi₀ := List.getElem?_eq_getElem hlt
  exact ⟨_, hitems i _ v hi₀ hi, fun path w hw => Value.mem_parts_item hi₀ hw⟩

theorem shaped_concealItem {before : Value} {items : List Value} {i : Nat}
    (h : c.concealItem i items draw = some step) (hitems : Shaped c es before (.array items))
    (hnew : ∀ d, ([Pointer.indexText i], d) ∉ es) :
    Shaped c (es ++ [([Pointer.indexText i], step.disclosure)]) before step.value ∧
      ShapedAt c es before [Pointer.indexText i] step.disclosure.concealed.value := by
  obtain ⟨v, hi, rfl⟩ := concealItem_eq_some_iff.1 h
  refine ⟨shaped_set hitems hi fun v₀ _ => .inl ⟨_, ?_, rfl, rfl⟩, ?_⟩
  · exact List.mem_append_right _ (List.mem_singleton_self _)
  · obtain ⟨v₀, hv, hparts⟩ := exists_shapedItem hitems hi
    rcases hv with ⟨d, hd, -⟩ | hv
    · exact absurd hd (hnew d)
    · exact ⟨v₀, hparts _ _ (Value.self_mem_parts _), hv⟩

/-- Concealing at one place adds its entry, and what is taken out keeps the entries inside it. -/
theorem shaped_concealAt {ts : List Pointer.Token} {before v : Value}
    (hts : ∀ t ∈ ts, isReserved t.toDecoded = false) (h : c.ConcealsAt draw ts v step)
    (hv : Shaped c es before v) (hnew : ∀ d, (ts.map Pointer.Token.toDecoded, d) ∉ es) :
    Shaped c (es ++ [(ts.map Pointer.Token.toDecoded, step.disclosure)]) before step.value ∧
      ShapedAt c es before (ts.map Pointer.Token.toDecoded) step.disclosure.concealed.value := by
  induction h generalizing before es with
  | member h => exact shaped_concealMember (hts _ List.mem_cons_self) h hv
  | item hi h =>
    rw [List.map_cons, List.map_nil, Pointer.Token.toDecoded_eq_of_index? hi] at hnew ⊢
    exact shaped_concealItem h hv hnew
  | @inMember t rest ms u step hget h ih =>
    obtain ⟨ht, hrest⟩ := List.forall_mem_cons.1 hts
    have hdeeper {u₀ : Value} (hu : Shaped c (Entry.inside t.toDecoded es) u₀ u) :=
      ih hrest hu fun d hd => hnew d (Entry.mem_inside_iff.1 hd)
    rw [List.map_cons]
    refine ⟨shaped_insert ht h.map_ne_nil hv hget fun u₀ hu => ?_, ?_⟩
    · rw [Entry.inside_append_self]
      exact (hdeeper hu).1
    · obtain ⟨u₀, hu, hparts⟩ := exists_shapedMember ht hv hget
      obtain ⟨-, w₀, hpart, htaken⟩ := hdeeper hu
      exact ⟨w₀, hparts _ _ hpart, htaken⟩
  | @inItem t rest i items u step hi hget h ih =>
    obtain ⟨-, hrest⟩ := List.forall_mem_cons.1 hts
    rw [List.map_cons, Pointer.Token.toDecoded_eq_of_index? hi] at hnew ⊢
    have hnot {u₀ : Value} (hu : ShapedItem c es i u₀ u) :
        Shaped c (Entry.inside (Pointer.indexText i) es) u₀ u := by
      rcases hu with ⟨d, -, -, rfl⟩ | hu
      · exact absurd h (not_concealsAt_placeholder hrest _)
      · exact hu
    have hdeeper {u₀ : Value} (hu : ShapedItem c es i u₀ u) := ih hrest (hnot hu)
      fun d hd => hnew d (Entry.mem_inside_iff.1 hd)
    refine ⟨shaped_set hv hget fun u₀ hu => .inr ?_, ?_⟩
    · rw [Entry.inside_append_self]
      exact (hdeeper hu).1
    · obtain ⟨u₀, hu, hparts⟩ := exists_shapedItem hv hget
      obtain ⟨-, w₀, hpart, htaken⟩ := hdeeper hu
      exact ⟨w₀, hparts _ _ hpart, htaken⟩

/-! ## All places -/

theorem not_prefix_append {p : Pointer} {ps : List Pointer} {d : Disclosure}
    (hes : ∀ e ∈ es, ∀ q ∈ p :: ps, ¬e.1 <+: q.decoded)
    (hp : ∀ q ∈ ps, ¬p.decoded <+: q.decoded) :
    ∀ e ∈ es ++ [(p.decoded, d)], ∀ q ∈ ps, ¬e.1 <+: q.decoded := by
  intro e he q hq
  rcases List.mem_append.1 he with he | he
  · exact hes e he q (List.mem_cons_of_mem _ hq)
  · rw [List.mem_singleton.1 he]
    exact hp q hq

/-- With the entries of all places the claims are shaped, and each disclosed value is with the
entries inside it. No place stands inside one that was concealed before it. -/
theorem shaped_concealAll {before : Value} {ps : List Pointer} {claims claims' : Members}
    {ds : List Disclosure} (hts : ∀ p ∈ ps, ∀ t ∈ p.tokens, isReserved t.toDecoded = false)
    (hps : ps.Pairwise fun p q => ¬p.decoded <+: q.decoded)
    (hes : ∀ e ∈ es, ∀ p ∈ ps, ¬e.1 <+: p.decoded)
    (hclaims : Shaped c es before (.object claims))
    (h : c.concealAll ps claims draw = .ok (claims', ds)) :
    ds.length = ps.length ∧ Shaped c (es ++ Entry.zip ps ds) before (.object claims') ∧
      ∀ e ∈ Entry.zip ps ds, ∃ v₀, (e.1, v₀) ∈ before.parts ∧
        Shaped c (Entry.below e.1 (es ++ Entry.zip ps ds)) v₀ e.2.concealed.value := by
  induction ps generalizing claims es draw ds with
  | nil =>
    rw [concealAll] at h
    cases h
    refine ⟨rfl, ?_, fun e he => absurd he List.not_mem_nil⟩
    rwa [Entry.zip, List.zip_nil_right, List.append_nil]
  | cons p r ih =>
    obtain ⟨htp, htr⟩ := List.forall_mem_cons.1 hts
    obtain ⟨hp, hr⟩ := List.pairwise_cons.1 hps
    obtain ⟨-, d, claims₁, draw₁, ds₂, hstep, hrun, rfl⟩ := concealAll_cons_eq_ok_iff.1 h
    have hnew : ∀ d, (p.decoded, d) ∉ es := fun d hd =>
      hes _ hd p List.mem_cons_self (List.prefix_refl _)
    obtain ⟨hvalue, v₀, hpart, htaken⟩ := shaped_concealAt htp hstep hclaims hnew
    replace htaken : Shaped c (Entry.insideAll p.decoded es) v₀ d.concealed.value := htaken
    obtain ⟨hlen, hshaped, hdisclosed⟩ := ih htr hr (not_prefix_append hes hp) hvalue hrun
    have hall : es ++ [(p.decoded, d)] ++ Entry.zip r ds₂ =
        es ++ Entry.zip (p :: r) (d :: ds₂) := List.append_assoc _ _ _
    rw [hall] at hshaped hdisclosed
    refine ⟨by rw [List.length_cons, List.length_cons, hlen], hshaped, ?_⟩
    refine List.forall_mem_cons.2 ⟨⟨v₀, hpart, ?_⟩, hdisclosed⟩
    -- Later places are not inside this one, so its entries are final.
    have hlater : ∀ e ∈ Entry.zip r ds₂, ¬p.decoded <+: e.1 := by
      intro e he
      obtain ⟨q, hq, hqe⟩ := List.mem_map.1 (List.of_mem_zip he).1
      rw [← hqe]
      exact hp q hq
    show Shaped c (Entry.below p.decoded (es ++ (p.decoded, d) :: Entry.zip r ds₂)) v₀ _
    rw [Entry.below_append_cons (ne_nil_of_shaped htaken) hlater]
    exact htaken

end Concealer

namespace Payload
variable {f : DigestFunction} {how : Concealment} {claims : Members} {places : List Pointer}
  {payload : Payload} {ds : List Disclosure}

def concealer (f : DigestFunction) (how : Concealment) : Concealer :=
  ⟨f how.algorithm, how.decoys, how.random⟩

def descending (places : List Pointer) : List Pointer :=
  (Pointer.ascending places).reverse

theorem mem_descending {p : Pointer} : p ∈ descending places ↔ p ∈ places := by
  rw [descending, List.mem_reverse, Pointer.mem_ascending]

theorem pairwise_descending (places : List Pointer) :
    (descending places).Pairwise fun p q => ¬p.decoded <+: q.decoded := by
  refine (pairwise_ascending_reverse places).imp fun {p q} hlt hbegins => ?_
  by_cases hne : p = q
  · exact Pointer.lt_irrefl q (hne ▸ hlt)
  · refine Pointer.lt_irrefl p (Pointer.lt_trans (Pointer.lt_of_isAncestorOf ?_) hlt)
    exact Pointer.isAncestorOf_iff.2 ⟨hbegins, fun heq => hne (Pointer.decoded_injective heq)⟩

theorem shaped_of_conceals (hs : Value.Sorted (.object claims))
    (h : Conceals f how claims places payload ds) :
    ds.length = (descending places).length ∧
      Shaped (concealer f how) (Entry.zip (descending places) ds) (.object claims)
        (.object payload.claims) ∧
      ∀ e ∈ Entry.zip (descending places) ds, ∃ v₀, (e.1, v₀) ∈ (Value.object claims).parts ∧
        Shaped (concealer f how) (Entry.below e.1 (Entry.zip (descending places) ds)) v₀
          e.2.concealed.value :=
  Concealer.shaped_concealAll
    (fun p hp => h.tokens p (mem_descending.1 hp)) (pairwise_descending places)
    (fun _ he => absurd he List.not_mem_nil) (shaped_of_reservedIn? hs h.names) h.run

end Payload

end SelectiveDisclosure
