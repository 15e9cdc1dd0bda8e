import SelectiveDisclosure.Proofs.Claims.Layout

/-!
# How deep concealed claims are

Digests stand beside what has been concealed, one level below the array or the object that held it.
So concealing makes claims deeper only at their deepest places. Claims that can be read stay so,
unless a place at the limit is concealed where a single array or object is around it in the payload
or in the disclosure that it ends up in.
-/

set_option autoImplicit false

namespace SelectiveDisclosure

open Json

/-! ## Shaped values -/

section Shaped
variable {c : Concealer} {es : List Entry} {before v w : Value} {path : List String}

theorem depth_ne_zero_of_shaped (h : Shaped c es before v) (hv : v.depth ≠ 0) :
    before.depth ≠ 0 := by
  cases v with
  | array items =>
    obtain ⟨items₀, rfl, -⟩ := h
    exact Nat.succ_ne_zero _
  | object ms =>
    obtain ⟨ms₀, rfl, -⟩ := h
    exact Nat.succ_ne_zero _
  | _ => exact absurd rfl hv

theorem Stands.length_lt (h : Stands c es before path w) (hw : w.depth ≠ 0) :
    path.length < before.depth := by
  obtain ⟨w₀, hpart, hshaped⟩ := h.shaped
  have hdepth := Value.depth_add_length_le hpart
  have hne := depth_ne_zero_of_shaped hshaped hw
  omega

/-- An array or an object that is no part that stands came with an entry, and lies as deep as what
this entry has concealed in such a part. -/
theorem Container.stands_or (h : Container c es before v path w) :
    Stands c es before path w ∨ ∃ front token d u, path.length = front.length + 1 ∧
      (front ++ [token], d) ∈ es ∧ u.depth ≠ 0 ∧ Stands c es before front u := by
  cases h with
  | whole hstands => exact .inl hstands
  | placeholder front i items d hpath hw hd hname hpart hstands =>
    refine .inr ⟨front, _, d, .array items, ?_, hpath ▸ hd, Nat.succ_ne_zero _, hstands⟩
    rw [hpath, List.length_append, List.length_singleton]
  | digests front ms texts hpath hw hget hstands =>
    obtain ⟨v₀, -, ms₀, -, -, -, -, hbears, -⟩ := hstands.shaped
    rcases hbears with ⟨-, habsent⟩ | ⟨hne, -⟩
    · exact absurd (Members.mem_names_of_mem (Members.mem_of_get? hget)) habsent
    · obtain ⟨d, hd⟩ := List.exists_mem_of_ne_nil _ hne
      rw [Entry.ofObject_insideAll, List.append_nil] at hd
      obtain ⟨name, hd⟩ := Entry.mem_ofObject_iff.1 hd
      refine .inr ⟨front, name, d, .object ms, ?_, hd, Nat.succ_ne_zero _, hstands⟩
      rw [hpath, List.length_append, List.length_singleton]

/-- A value gets no deeper when what is concealed at its deepest lies inside something else that
is. -/
theorem depth_le_of_shaped {limit : Nat} (h : Shaped c es before v) (hbefore : before.depth ≤ limit)
    (hes : ∀ e ∈ es, e.1.length = limit → ∃ e' ∈ es, e'.1 <+: e.1 ∧ e'.1 ≠ e.1) :
    v.depth ≤ limit := by
  refine Value.depth_le_of_parts fun path w hpart hw => ?_
  rcases (container_of_shaped h hpart hw).stands_or with
    hstands | ⟨front, token, d, u, hlen, hd, hu, hstands⟩
  · exact Nat.lt_of_lt_of_le (hstands.length_lt hw) hbefore
  · have hfront := hstands.length_lt hu
    by_contra hdeep
    have hlimit : (front ++ [token]).length = limit := by
      rw [List.length_append, List.length_singleton]
      omega
    obtain ⟨e, he, hbegins, hne⟩ := hes _ hd hlimit
    exact hstands.clear e he ((List.prefix_concat_iff.1 hbegins).resolve_left hne)

theorem length_lt_depth_of_shaped (h : Shaped c es before v) {d : Disclosure} (hd : (path, d) ∈ es)
    (hsd : Digests.membersName ∉ path) (hclear : ∀ e ∈ es, e.1 <+: path → e.1 = path) :
    path.length < v.depth := by
  have hbelow {rel : List String} {w : Value} (hpart : (rel, w) ∈ v.parts) (hw : w.depth ≠ 0) :
      rel.length < v.depth := by
    have hdepth := Value.depth_add_length_le hpart
    omega
  cases holder_of_shaped h hd hsd hclear with
  | object front token ms hpath hpart hbears =>
    subst hpath
    rcases hbears with ⟨hnil, -⟩ | ⟨-, draw, texts, hget, -⟩
    · have hof : d ∈ Entry.ofObject front es := Entry.mem_ofObject_iff.2 ⟨token, hd⟩
      rw [hnil] at hof
      cases hof
    · have hdigests := hbelow (Value.mem_parts_append hpart (Value.mem_parts_member
        (Members.mem_of_get? hget) (Value.self_mem_parts _))) (Nat.succ_ne_zero _)
      rwa [List.length_append] at hdigests ⊢
  | placeholder d' hd' hpart => exact hbelow hpart (Nat.succ_ne_zero _)

end Shaped

/-! ## Concealed payloads -/

namespace Payload
variable {f : DigestFunction} {how : Concealment} {claims : Members} {places : List Pointer}
  {payload : Payload} {ds : List Disclosure}

/-- Each place with as many arrays and objects around it as can be read is concealed inside another
one, which is not a whole claim. -/
def LeavesRoom (places : List Pointer) : Prop :=
  ∀ p ∈ places, depthLimit ≤ p.decoded.length →
    ∃ q ∈ places, q.isAncestorOf p = true ∧ 2 ≤ q.decoded.length

instance (places : List Pointer) : Decidable (LeavesRoom places) :=
  inferInstanceAs (Decidable (∀ p ∈ places, depthLimit ≤ p.decoded.length →
    ∃ q ∈ places, q.isAncestorOf p = true ∧ 2 ≤ q.decoded.length))

theorem exists_place {e : Entry} (he : e ∈ Entry.zip (descending places) ds) :
    ∃ p ∈ places, p.decoded = e.1 := by
  obtain ⟨p, hp, heq⟩ := List.mem_map.1 (List.of_mem_zip he).1
  exact ⟨p, mem_descending.1 hp, heq⟩

theorem exists_entry (hlen : ds.length = (descending places).length) {p : Pointer}
    (hp : p ∈ places) : ∃ d, (p.decoded, d) ∈ Entry.zip (descending places) ds := by
  obtain ⟨d, hd⟩ := exists_mem_zip hlen (mem_descending.2 hp)
  rw [Entry.zip, List.zip_map_left]
  exact ⟨d, List.mem_map.2 ⟨_, hd, rfl⟩⟩

theorem depth_le_of_leavesRoom (hs : Value.Sorted (.object claims))
    (hd : (Value.object claims).depth ≤ depthLimit) (hroom : LeavesRoom places)
    (h : Conceals f how claims places payload ds) :
    (Value.object payload.claims).depth ≤ depthLimit ∧
      ∀ d ∈ ds, d.concealed.value.depth ≤ 126 := by
  obtain ⟨hlen, hshaped, hdisclosed⟩ := shaped_of_conceals hs h
  constructor
  · refine depth_le_of_shaped hshaped hd fun e he hdeep => ?_
    obtain ⟨p, hp, heq⟩ := exists_place he
    obtain ⟨q, hq, hanc, -⟩ := hroom p hp (by rw [heq, hdeep])
    obtain ⟨d, hqd⟩ := exists_entry hlen hq
    rw [Pointer.isAncestorOf_iff, heq] at hanc
    exact ⟨_, hqd, hanc⟩
  · intro d hmem
    rw [← Entry.map_snd_zip hlen] at hmem
    obtain ⟨e, he, rfl⟩ := List.mem_map.1 hmem
    obtain ⟨v₀, hpart, hvalue⟩ := hdisclosed e he
    have hbefore := Value.depth_add_length_le hpart
    have hne : e.1.length ≠ 0 := fun hzero =>
      ne_nil_of_shaped hshaped e he (List.eq_nil_of_length_eq_zero hzero)
    rw [depthLimit] at hd
    refine depth_le_of_shaped hvalue (by omega) ?_
    -- An entry as deep as that comes from a place at the limit, inside a whole claim.
    rintro ⟨rel, d⟩ hrel (hdeep : rel.length = 126)
    obtain ⟨hrel, -⟩ := Entry.mem_below_iff.1 hrel
    obtain ⟨p, hp, heq⟩ := exists_place hrel
    obtain ⟨u₀, hpartRel, -⟩ := hdisclosed _ hrel
    have hlength := Value.depth_add_length_le hpartRel
    rw [List.length_append] at hlength
    obtain ⟨q, hq, hanc, htwo⟩ := hroom p hp (by
      rw [heq, List.length_append, hdeep, depthLimit]
      omega)
    rw [Pointer.isAncestorOf_iff, heq] at hanc
    obtain ⟨d', hqd⟩ := exists_entry hlen hq
    have houter : e.1 <+: q.decoded :=
      List.prefix_of_prefix_length_le (List.prefix_append e.1 rel) hanc.1 (by omega)
    obtain ⟨rel', heq'⟩ := houter
    rw [← heq'] at hanc hqd htwo
    rw [List.length_append] at htwo
    refine ⟨(rel', d'), Entry.mem_below_iff.2 ⟨hqd, ?_⟩, ?_, ?_⟩
    · rintro rfl
      rw [List.length_nil] at htwo
      omega
    · exact (List.prefix_append_right_inj _).1 hanc.1
    · exact fun hsame => hanc.2 (congrArg (e.1 ++ ·) hsame)

theorem exists_deep_of_not_leavesRoom (hs : Value.Sorted (.object claims))
    (hroom : ¬LeavesRoom places) (h : Conceals f how claims places payload ds) :
    depthLimit < (Value.object payload.claims).depth ∨
      ∃ d ∈ ds, 126 < d.concealed.value.depth := by
  obtain ⟨hlen, hshaped, hdisclosed⟩ := shaped_of_conceals hs h
  simp only [LeavesRoom, not_forall, not_exists, not_and] at hroom
  obtain ⟨p, hp, hdeep, hnone⟩ := hroom
  obtain ⟨d, hpd⟩ := exists_entry hlen hp
  have hsd := membersName_notMem_decoded (h.tokens p hp)
  -- Each entry around the place is that of a whole claim.
  have hwhole : ∀ e ∈ Entry.zip (descending places) ds, e.1 <+: p.decoded → e.1 ≠ p.decoded →
      e.1.length = 1 := by
    intro e he hbegins hne
    obtain ⟨q, hq, heq⟩ := exists_place he
    have hshort := hnone q hq (Pointer.isAncestorOf_iff.2 (heq.symm ▸ ⟨hbegins, hne⟩))
    have hpos : e.1.length ≠ 0 := fun hzero =>
      ne_nil_of_shaped hshaped e he (List.eq_nil_of_length_eq_zero hzero)
    rw [heq] at hshort
    omega
  by_cases hinside : ∃ e ∈ Entry.zip (descending places) ds, e.1 <+: p.decoded ∧ e.1 ≠ p.decoded
  · obtain ⟨e, he, hbegins, hne⟩ := hinside
    have hone := hwhole e he hbegins hne
    obtain ⟨rel, hrel⟩ := hbegins
    obtain ⟨v₀, -, hvalue⟩ := hdisclosed e he
    rw [← hrel] at hpd hsd hdeep hne
    have hentry : (rel, d) ∈ Entry.below e.1 (Entry.zip (descending places) ds) :=
      Entry.mem_below_iff.2 ⟨hpd, by rintro rfl; exact hne (List.append_nil _).symm⟩
    have hlt := length_lt_depth_of_shaped hvalue hentry
      (fun hm => hsd (List.mem_append_right _ hm)) fun e' he' hbegins' => by
        obtain ⟨he', hne'⟩ := Entry.mem_below_iff.1 he'
        by_contra hdiffers
        have hlength := hwhole _ he' (hrel ▸ (List.prefix_append_right_inj _).2 hbegins')
          (hrel ▸ fun heq => hdiffers (List.append_cancel_left heq))
        rw [List.length_append, hone] at hlength
        exact hne' (List.eq_nil_of_length_eq_zero (by omega))
    refine .inr ⟨e.2, (List.of_mem_zip he).2, ?_⟩
    rw [List.length_append, depthLimit] at hdeep
    omega
  · simp only [not_exists, not_and, not_not] at hinside
    exact .inl (Nat.lt_of_le_of_lt hdeep (length_lt_depth_of_shaped hshaped hpd hsd hinside))

end Payload

end SelectiveDisclosure
