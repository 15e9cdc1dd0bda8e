import SelectiveDisclosure.Proofs.Claims.Concealment
import SelectiveDisclosure.Proofs.Token.Decoding

/-!
# Concealed claims can be written

Digests make a value deeper by one at most, wherever they stand. So what is left of claims, and
each value that is taken out of them, can be written and read again.
-/

set_option autoImplicit false

namespace SelectiveDisclosure

open Json Reveal

mutual

/-- A sorted value which, its digests not counted, has at most so many arrays and objects around
each of its parts. -/
def FitsIn : Value → Nat → Prop
  | .array items, d => ∃ e, d = e + 1 ∧ FitItems items e
  | .object ms, d => ∃ e, d = e + 1 ∧ Members.Ascending ms ∧
      (∃ digests, digestTexts? ms = some digests) ∧ Payload.algorithmName ∉ Members.names ms ∧
      FitMembers ms e
  | _, _ => True

def FitItems : List Value → Nat → Prop
  | [], _ => True
  | v :: r, d => ((∃ g, v = Digests.placeholder g) ∨ FitsIn v d) ∧ FitItems r d

def FitMembers : List (String × Value) → Nat → Prop
  | [], _ => True
  | (k, v) :: r, d => (k = Digests.membersName ∨ FitsIn v d) ∧ FitMembers r d

end

section FitsIn
variable {d : Nat}

theorem fitItems_iff {items : List Value} :
    FitItems items d ↔ ∀ v ∈ items, (∃ g, v = Digests.placeholder g) ∨ FitsIn v d := by
  induction items with
  | nil => simp [FitItems]
  | cons v r ih => simp [FitItems, ih]

theorem fitMembers_iff {ms : Members} :
    FitMembers ms d ↔ ∀ m ∈ ms, m.1 = Digests.membersName ∨ FitsIn m.2 d := by
  induction ms with
  | nil => simp [FitMembers]
  | cons m r ih => simp [FitMembers, ih]

theorem eq_texts_of_mem {ms : Members} {digests : List String} (hasc : Members.Ascending ms)
    (h : digestTexts? ms = some digests) {m : String × Value} (hm : m ∈ ms)
    (hk : m.1 = Digests.membersName) : m.2 = .array (digests.map .string) := by
  have hget : Members.get? ms Digests.membersName = some m.2 := hk ▸ Members.get?_of_mem hasc hm
  rcases digestTexts?_eq_some_iff.1 h with ⟨hnone, -⟩ | hsome
  · rw [hget] at hnone
    cases hnone
  · rw [hget] at hsome
    exact Option.some.inj hsome

theorem depth_placeholder_le (g : String) (d : Nat) :
    (Digests.placeholder g).depth ≤ d + 1 := by
  rw [Digests.placeholder, Value.depth_object_le_iff]
  exact List.forall_mem_singleton.2 (Nat.zero_le d)

theorem sorted_of_fitsIn {v : Value} (h : FitsIn v d) : Value.Sorted v := by
  induction v using Value.induct generalizing d with
  | scalar v hv =>
    cases v with
    | array items => cases hv
    | object ms => cases hv
    | _ => trivial
  | array items ih =>
    obtain ⟨e, rfl, hitems⟩ := h
    rw [Value.sorted_array_iff]
    intro v hv
    rcases fitItems_iff.1 hitems v hv with ⟨g, rfl⟩ | hfit
    · exact Digests.sorted_placeholder g
    · exact ih v hv hfit
  | object ms ih =>
    obtain ⟨e, rfl, hasc, ⟨digests, hdigests⟩, -, hmembers⟩ := h
    rw [Value.sorted_object_iff]
    refine ⟨hasc, fun m hm => ?_⟩
    rcases fitMembers_iff.1 hmembers m hm with hk | hfit
    · rw [eq_texts_of_mem hasc hdigests hm hk, Value.sorted_array_iff]
      intro v hv
      obtain ⟨s, -, rfl⟩ := List.mem_map.1 hv
      trivial
    · exact ih m hm hfit

theorem depth_le_of_fitsIn {v : Value} (h : FitsIn v d) : v.depth ≤ d + 1 := by
  induction v using Value.induct generalizing d with
  | scalar v hv => omega
  | array items ih =>
    obtain ⟨e, rfl, hitems⟩ := h
    rw [Value.depth_array_le_iff]
    intro v hv
    rcases fitItems_iff.1 hitems v hv with ⟨g, rfl⟩ | hfit
    · exact depth_placeholder_le g e
    · exact ih v hv hfit
  | object ms ih =>
    obtain ⟨e, rfl, hasc, ⟨digests, hdigests⟩, -, hmembers⟩ := h
    rw [Value.depth_object_le_iff]
    intro m hm
    rcases fitMembers_iff.1 hmembers m hm with hk | hfit
    · rw [eq_texts_of_mem hasc hdigests hm hk, Value.depth_array_le_iff]
      intro v hv
      obtain ⟨s, -, rfl⟩ := List.mem_map.1 hv
      exact Nat.zero_le e
    · exact ih m hm hfit

theorem fitsIn_of_reservedIn? {v : Value} (hs : Value.Sorted v) (hd : v.depth ≤ d)
    (hfree : Conceal.reservedIn? v = none) : FitsIn v d := by
  induction v using Value.induct generalizing d with
  | scalar v hv =>
    cases v with
    | array items => cases hv
    | object ms => cases hv
    | _ => trivial
  | array items ih =>
    cases d with
    | zero => exact absurd hd (Nat.not_succ_le_zero _)
    | succ e =>
      rw [Value.sorted_array_iff] at hs
      rw [Value.depth_array_le_iff] at hd
      rw [Conceal.reservedIn?, Conceal.reservedInItems?_eq_none_iff] at hfree
      exact ⟨e, rfl, fitItems_iff.2 fun v hv => .inr (ih v hv (hs v hv) (hd v hv) (hfree v hv))⟩
  | object ms ih =>
    cases d with
    | zero => exact absurd hd (Nat.not_succ_le_zero _)
    | succ e =>
      rw [Value.sorted_object_iff] at hs
      rw [Value.depth_object_le_iff] at hd
      rw [Conceal.reservedIn?, Conceal.reservedInMembers?_eq_none_iff] at hfree
      have habsent {name : String} : isReserved name = true → name ∉ Members.names ms :=
        Conceal.notMem_names_of_isReserved fun m hm => (hfree m hm).1
      refine ⟨e, rfl, hs.1, ⟨[], ?_⟩, habsent rfl, ?_⟩
      · exact digestTexts?_eq_some_iff.2 (.inl ⟨Members.get?_eq_none_iff.2 (habsent rfl), rfl⟩)
      · exact fitMembers_iff.2 fun m hm => .inr (ih m hm (hs.2 m hm) (hd m hm) (hfree m hm).2)

end FitsIn

/-! ## Concealing -/

namespace Concealer
variable {c : Concealer}

def TakesOut (e : Nat) (d : Disclosure) : Prop :=
  ∃ salt con, d = .ofParts salt con ∧ Value.Sorted con.value ∧ con.value.depth ≤ e ∧
    ∀ name, con.name? = some name → isReserved name = false

theorem TakesOut.mono {e e' : Nat} {d : Disclosure} (h : TakesOut e d) (hle : e ≤ e') :
    TakesOut e' d := by
  obtain ⟨salt, con, heq, hsorted, hdepth, hfree⟩ := h
  exact ⟨salt, con, heq, hsorted, Nat.le_trans hdepth hle, hfree⟩

theorem fitMembers_insert {ms : Members} {name : String} {v : Value} {e : Nat}
    (hms : FitMembers ms e) (hv : name = Digests.membersName ∨ FitsIn v e) :
    FitMembers (Members.insert name v ms) e := by
  rw [fitMembers_iff] at hms ⊢
  exact Members.forall_mem_insert hv hms

theorem notMem_names_insert {ms : Members} {k name : String} {v : Value} (hne : k ≠ name)
    (h : name ∉ Members.names ms) : name ∉ Members.names (Members.insert k v ms) := by
  intro hm
  rcases Members.names_insert_subset name hm with rfl | hm
  · exact hne rfl
  · exact h hm

theorem fitsIn_concealMember {name : String} {ms : Members} {draw d : Nat} {step : Step}
    (hname : isReserved name = false) (h : c.concealMember name ms draw = some step)
    (hfit : FitsIn (.object ms) d) : FitsIn step.value d ∧ TakesOut d step.disclosure := by
  obtain ⟨hsd, -, -⟩ := ne_of_not_isReserved hname
  obtain ⟨e, rfl, hasc, ⟨digests, hdigests⟩, halg, hmembers⟩ := hfit
  obtain ⟨v, left, _, hget, hleft, rfl⟩ := concealMember_eq_some_iff.1 h
  have htexts : digestTexts? (Members.erase ms name) = some digests := by
    rw [digestTexts?, Members.get?_erase_of_ne hsd]
    exact hdigests
  obtain ⟨decoys, ds', draw', hadd, -⟩ := addDigest_spec (c := c) htexts
    (c.digest (Disclosure.ofParts (c.salt draw) (.member name v)).encoded) (draw + 1)
  cases hadd.symm.trans hleft
  have hv : FitsIn v e :=
    (fitMembers_iff.1 hmembers (name, v) (Members.mem_of_get? hget)).resolve_left hsd
  have hrest : FitMembers (Members.erase ms name) e :=
    fitMembers_iff.2 fun m hm => fitMembers_iff.1 hmembers m (Members.mem_erase.1 hm).1
  have halgRest : Payload.algorithmName ∉ Members.names (Members.erase ms name) := by
    intro hm
    obtain ⟨m, hm, hk⟩ := List.mem_map.1 hm
    exact halg (List.mem_map.2 ⟨m, (Members.mem_erase.1 hm).1, hk⟩)
  refine ⟨⟨e, rfl, Members.ascending_insert (Members.ascending_erase hasc), ⟨ds', ?_⟩, ?_, ?_⟩, ?_⟩
  · exact digestTexts?_eq_some_iff.2 (.inr Members.get?_insert_self)
  · exact notMem_names_insert (by decide) halgRest
  · exact fitMembers_insert hrest (.inl rfl)
  · refine ⟨_, _, rfl, sorted_of_fitsIn hv, depth_le_of_fitsIn hv, fun n hn => ?_⟩
    cases hn
    exact hname

theorem fitItems_set {items : List Value} {i e : Nat} {v : Value} (hitems : FitItems items e)
    (hv : (∃ g, v = Digests.placeholder g) ∨ FitsIn v e) : FitItems (items.set i v) e := by
  rw [fitItems_iff] at hitems ⊢
  intro u hu
  rcases List.mem_or_eq_of_mem_set hu with hu | rfl
  · exact hitems u hu
  · exact hv

theorem fitsIn_concealItem {items : List Value} {i draw d : Nat} {step : Step}
    (h : c.concealItem i items draw = some step) (hfit : FitsIn (.array items) d) :
    FitsIn step.value d ∧ TakesOut d step.disclosure := by
  obtain ⟨e, rfl, hitems⟩ := hfit
  obtain ⟨v, hi, rfl⟩ := concealItem_eq_some_iff.1 h
  refine ⟨⟨e, rfl, fitItems_set hitems (.inl ⟨_, rfl⟩)⟩, _, _, rfl, ?_⟩
  have hfree : ∀ name, (Concealed.item v).name? = some name → isReserved name = false := by
    intro name hname
    cases hname
  rcases fitItems_iff.1 hitems v (List.mem_of_getElem? hi) with ⟨g, rfl⟩ | hv
  · exact ⟨Digests.sorted_placeholder g, depth_placeholder_le g e, hfree⟩
  · exact ⟨sorted_of_fitsIn hv, depth_le_of_fitsIn hv, hfree⟩

theorem fitsIn_concealAt {ts : List Pointer.Token} {v : Value} {draw d : Nat} {step : Step}
    (hts : ∀ t ∈ ts, isReserved t.toDecoded = false) (h : c.ConcealsAt draw ts v step)
    (hfit : FitsIn v d) : FitsIn step.value d ∧ TakesOut d step.disclosure := by
  induction h generalizing d with
  | member h => exact fitsIn_concealMember (hts _ List.mem_cons_self) h hfit
  | item hi h => exact fitsIn_concealItem h hfit
  | inMember hget h ih =>
    obtain ⟨ht, hrest⟩ := List.forall_mem_cons.1 hts
    obtain ⟨hsd, -, halgName⟩ := ne_of_not_isReserved ht
    obtain ⟨e, rfl, hasc, ⟨digests, hdigests⟩, halg, hmembers⟩ := hfit
    have hv := (fitMembers_iff.1 hmembers _ (Members.mem_of_get? hget)).resolve_left hsd
    obtain ⟨hvalue, hout⟩ := ih hrest hv
    refine ⟨⟨e, rfl, Members.ascending_insert hasc, ⟨digests, ?_⟩,
      notMem_names_insert halgName halg, fitMembers_insert hmembers (.inr hvalue)⟩,
      hout.mono (Nat.le_succ e)⟩
    rw [digestTexts?, Members.get?_insert_of_ne hsd]
    exact hdigests
  | inItem hi hget h ih =>
    obtain ⟨-, hrest⟩ := List.forall_mem_cons.1 hts
    obtain ⟨e, rfl, hitems⟩ := hfit
    rcases fitItems_iff.1 hitems _ (List.mem_of_getElem? hget) with ⟨g, rfl⟩ | hv
    · exact absurd h (not_concealsAt_placeholder hrest g)
    · obtain ⟨hvalue, hout⟩ := ih hrest hv
      exact ⟨⟨e, rfl, fitItems_set hitems (.inr hvalue)⟩, hout.mono (Nat.le_succ e)⟩

theorem fitsIn_concealAll {ps : List Pointer} {claims claims' : Members} {draw d : Nat}
    {ds : List Disclosure} (hts : ∀ p ∈ ps, ∀ t ∈ p.tokens, isReserved t.toDecoded = false)
    (h : c.concealAll ps claims draw = .ok (claims', ds)) (hfit : FitsIn (.object claims) d) :
    FitsIn (.object claims') d ∧ ∀ e ∈ ds, TakesOut d e := by
  induction ps generalizing claims draw ds with
  | nil =>
    rw [concealAll] at h
    cases h
    exact ⟨hfit, fun e he => absurd he List.not_mem_nil⟩
  | cons p r ih =>
    obtain ⟨hp, hr⟩ := List.forall_mem_cons.1 hts
    obtain ⟨-, e, claims₁, draw₁, ds₂, hstep, hrun, rfl⟩ := concealAll_cons_eq_ok_iff.1 h
    obtain ⟨hvalue, hout⟩ := fitsIn_concealAt hp hstep hfit
    obtain ⟨hclaims, hds⟩ := ih hr hrun hvalue
    exact ⟨hclaims, List.forall_mem_cons.2 ⟨hout, hds⟩⟩

end Concealer

namespace Payload
variable {f : DigestFunction} {how : Concealment} {claims : Members} {places : List Pointer}
  {payload : Payload} {ds : List Disclosure}

/-- What is left of claims and what is taken out of them is at most one level deeper than they
were. -/
theorem takesOut_of_conceals {d : Nat} (hs : Value.Sorted (.object claims))
    (hd : (Value.object claims).depth ≤ d) (h : Conceals f how claims places payload ds) :
    payload.Fits ∧ (Value.object payload.claims).depth ≤ d + 1 ∧
      ∀ e ∈ ds, Concealer.TakesOut d e := by
  obtain ⟨hfit, hds⟩ := Concealer.fitsIn_concealAll
    (fun p hp => h.tokens p (Pointer.mem_ascending.1 (List.mem_reverse.1 hp))) h.run
    (fitsIn_of_reservedIn? hs hd h.names)
  have hsorted := sorted_of_fitsIn hfit
  have hdepth := depth_le_of_fitsIn hfit
  obtain ⟨-, -, -, -, halg, -⟩ := hfit
  exact ⟨⟨hsorted, halg⟩, hdepth, hds⟩

theorem fits_of_conceals (hs : Value.Sorted (.object claims))
    (hd : (Value.object claims).depth ≤ 126) (h : Conceals f how claims places payload ds) :
    payload.Fits ∧ (Value.object payload.claims).depth ≤ depthLimit ∧
      ∀ d ∈ ds, ∃ salt c, d = .ofParts salt c ∧ Disclosure.Fits c := by
  obtain ⟨hpayload, hdepth, hds⟩ := takesOut_of_conceals hs hd h
  refine ⟨hpayload, hdepth, fun d hd => ?_⟩
  obtain ⟨salt, c, heq, hsorted, hdepth, hfree⟩ := hds d hd
  exact ⟨salt, c, heq, hsorted, hdepth, hfree⟩

end Payload

end SelectiveDisclosure
