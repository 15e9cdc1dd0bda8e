import Mathlib.Data.List.Nodup
import SelectiveDisclosure.Proofs.Claims.Revealed
import SelectiveDisclosure.Proofs.Disclosure
import SelectiveDisclosure.Token.Revealed

/-!
# Decoded and revealed tokens

What is decoded is sorted and keeps the text it was decoded from. Each disclosure of a revealed
token has a place of its own, so the map of disclosures by places loses none.
-/

set_option autoImplicit false

namespace SelectiveDisclosure

open Json Reveal

/-! ## Decoding -/

theorem sorted_of_parseOctets? {bs : Octets} {v : Value} (h : Value.parseOctets? bs = some v) :
    Value.Sorted v := by
  simp only [Value.parseOctets?, Value.parse?, Option.bind_eq_some_iff, Option.map_eq_some_iff] at h
  obtain ⟨s, -, u, -, rfl⟩ := h
  exact Value.sorted_sorted u

namespace Disclosure

theorem decode_eq_ok {bs : Octets} {d : Disclosure} (h : decode bs = .ok d) :
    isEncoded bs = true ∧ d.encoded = bs ∧ Value.Sorted d.concealed.value := by
  obtain ⟨⟨hne, json, rfl, hparse⟩, -, hencoded⟩ := ((readExactly bs).ok d).1 h
  have hencodes := Token.isEncoded_iff.2 ⟨hne, Base64Url.isText_encode json⟩
  have hs := sorted_of_parseOctets? hparse
  refine ⟨hencodes, hencoded, ?_⟩
  cases hc : d.concealed <;> rw [hc] at hs <;>
    exact Value.sorted_array_iff.1 hs _ (by simp [Concealed.value])

theorem isReserved_of_decode {bs : Octets} {d : Disclosure} (h : decode bs = .ok d) {name : String}
    {v : Value} (hd : d.concealed = .member name v) : isReserved name = false := by
  obtain ⟨-, hfree, -⟩ := ((readExactly bs).ok d).1 h
  rw [hd] at hfree
  exact Concealed.isFree_member_iff.1 hfree

theorem map_decode_eq_ok {bs : List Octets} {ds : List Disclosure}
    (h : bs.map decode = ds.map .ok) :
    bs = ds.map encoded ∧ ∀ d ∈ ds, decode d.encoded = .ok d := by
  induction bs generalizing ds with
  | nil =>
    cases ds with
    | nil => exact ⟨rfl, nofun⟩
    | cons d r => cases h
  | cons b r ih =>
    cases ds with
    | nil => cases h
    | cons d r' =>
      obtain ⟨hd, hr⟩ := List.cons.inj h
      obtain ⟨rfl, hall⟩ := ih hr
      obtain rfl := (decode_eq_ok hd).2.1
      exact ⟨rfl, List.forall_mem_cons.2 ⟨hd, hall⟩⟩

end Disclosure

namespace Payload

theorem sorted_of_ofOctets {bs : Octets} {p : Payload} (h : ofOctets bs = .ok p) :
    Value.Sorted (.object p.claims) := by
  unfold ofOctets at h
  split at h
  · next claims hparse =>
    have hs := sorted_of_parseOctets? hparse
    unfold ofClaims at h
    split at h
    · cases h
      exact hs
    · rw [bind_eq_ok_iff] at h
      obtain ⟨a, -, h⟩ := h
      cases h
      rw [Value.sorted_object_iff] at hs ⊢
      exact ⟨Members.ascending_erase hs.1, fun m hm => hs.2 m (Members.mem_erase.1 hm).1⟩
    · cases h
  · cases h

end Payload

namespace Parts

theorem decodeDisclosures_eq_ok_iff {bs : List Octets} {ds : List Disclosure} :
    decodeDisclosures bs = .ok ds ↔ bs.map Disclosure.decode = ds.map .ok := by
  induction bs generalizing ds with
  | nil => cases ds <;> simp [decodeDisclosures]
  | cons b r ih =>
    simp only [decodeDisclosures, bind_eq_ok_iff, mapError_eq_ok_iff]
    constructor
    · rintro ⟨d, hd, ds', hds, h⟩
      cases h
      rw [List.map_cons, List.map_cons, hd, ih.1 hds]
    · intro h
      cases ds with
      | nil => cases h
      | cons d ds' =>
        obtain ⟨hd, hds⟩ := List.cons.inj h
        exact ⟨d, hd, ds', ih.2 hds, rfl⟩

theorem decode_eq_ok_iff {p : Parts} {t : Token.Decoded} :
    p.decode = .ok t ↔ ∃ d payload, p.jwt.decode = .ok d ∧
      Payload.ofOctets d.payload = .ok payload ∧ t.jwt = d.withPayload payload ∧
      p.disclosures.map Disclosure.decode = t.disclosures.map .ok := by
  simp only [decode, bind_eq_ok_iff, mapError_eq_ok_iff, decodeDisclosures_eq_ok_iff]
  constructor
  · rintro ⟨d, hd, payload, hp, ds, hds, h⟩
    cases h
    exact ⟨d, payload, hd, hp, rfl, hds⟩
  · rintro ⟨d, payload, hd, hp, ht, hds⟩
    exact ⟨d, hd, payload, hp, t.disclosures, hds, by rw [← ht]; rfl⟩

theorem sorted_of_decode {p : Parts} {t : Token.Decoded} (h : p.decode = .ok t) :
    Value.Sorted (.object t.jwt.payload.claims) ∧
      ∀ d ∈ t.disclosures, Value.Sorted d.concealed.value := by
  obtain ⟨d, payload, -, hpayload, hjwt, hds⟩ := decode_eq_ok_iff.1 h
  constructor
  · rw [hjwt]
    exact Payload.sorted_of_ofOctets hpayload
  · intro e he
    exact (Disclosure.decode_eq_ok ((Disclosure.map_decode_eq_ok hds).2 e he)).2.2

end Parts

/-! ## Places -/

namespace DisclosureMap

theorem perm_insert {p : Pointer} {d : Disclosure} {m : DisclosureMap}
    (h : p ∉ m.map Prod.fst) : (insert p d m).Perm ((p, d) :: m) := by
  induction m with
  | nil => exact List.Perm.refl _
  | cons e r ih =>
    obtain ⟨q, e⟩ := e
    simp only [List.map_cons, List.mem_cons, not_or] at h
    rw [insert]
    split
    · exact List.Perm.refl _
    · rw [if_neg h.1]
      exact ((ih h.2).cons _).trans (List.Perm.swap ..)

theorem perm_foldl_insert {es m : List (Pointer × Disclosure)}
    (h : ((es ++ m).map Prod.fst).Nodup) :
    (es.foldl (fun m e => insert e.1 e.2 m) m).Perm (es ++ m) := by
  induction es generalizing m with
  | nil => exact List.Perm.refl _
  | cons e r ih =>
    have hn : e.1 ∉ m.map Prod.fst := by
      intro hm
      apply (List.nodup_cons.1 h).1
      rw [List.append_eq, List.map_append]
      exact List.mem_append_right _ hm
    have hp : (r ++ insert e.1 e.2 m).Perm (e :: r ++ m) :=
      ((perm_insert hn).append_left r).trans List.perm_middle
    exact (ih ((hp.map Prod.fst).nodup_iff.2 h)).trans hp

theorem perm_ofList {es : List (Pointer × Disclosure)} (h : (es.map Prod.fst).Nodup) :
    (ofList es).Perm es := by
  have hfold : (ofList es).Perm (es ++ []) := perm_foldl_insert (by simpa using h)
  rwa [List.append_nil] at hfold

end DisclosureMap

namespace Payload
variable {f : DigestFunction} {p : Payload} {ds : List Disclosure} {claims : Members}
  {ps : List Pointer}

theorem nodup_places (hp : Value.Sorted (.object p.claims))
    (hds : ∀ d ∈ ds, Value.Sorted d.concealed.value) (h : p.reveal f ds = .ok (claims, ps)) :
    ps.length = ds.length ∧ ps.Nodup := by
  obtain ⟨o, ho, hclaims⟩ := exists_reveals hp hds h
  obtain ⟨hlen, -⟩ := map_eq_map_some_iff.1 ((places_of_reveals ho hclaims).1 h)
  refine ⟨hlen, ?_⟩
  have hds' : (ds.zip ps).map Prod.fst = ds := List.map_fst_zip (Nat.le_of_eq hlen.symm)
  have hps : (ds.zip ps).map Prod.snd = ps := List.map_snd_zip (Nat.le_of_eq hlen)
  have hzip : (ds.zip ps).Nodup := by
    apply List.Nodup.of_map Prod.fst
    rw [hds']
    exact List.Nodup.of_map _ ho.distinct
  rw [← hps]
  refine List.Nodup.map_on ?_ hzip
  rintro ⟨d, q⟩ hdq ⟨e, r⟩ her rfl
  have hd := (mem_paths_iff ho hclaims h).2 ⟨d, q, hdq, rfl, rfl⟩
  have he := (mem_paths_iff ho hclaims h).2 ⟨e, q, her, rfl, rfl⟩
  have hsame := List.inj_on_of_nodup_map (o.nodup_paths ho.opens) hd he rfl
  rw [List.inj_on_of_nodup_map ho.distinct (List.of_mem_zip hdq).1 (List.of_mem_zip her).1
    (Prod.mk.inj hsame).1]

end Payload

namespace Token.Decoded

theorem reveal_eq_ok {f : DigestFunction} {t : Decoded} {r : Revealed}
    (hp : Value.Sorted (.object t.jwt.payload.claims))
    (hds : ∀ d ∈ t.disclosures, Value.Sorted d.concealed.value) (h : t.reveal f = .ok r) :
    ∃ ps, t.jwt.payload.reveal f t.disclosures = .ok (r.claims, ps) ∧
      r.jwt = t.jwt.withPayload r.claims ∧ r.algorithm = t.jwt.payload.algorithm ∧
      r.disclosures.Perm (ps.zip t.disclosures) ∧ ps.length = t.disclosures.length := by
  simp only [reveal, bind_eq_ok_iff, Prod.exists] at h
  obtain ⟨claims, ps, hr, h⟩ := h
  cases h
  obtain ⟨hlen, hn⟩ := Payload.nodup_places hp hds hr
  refine ⟨ps, hr, rfl, rfl, DisclosureMap.perm_ofList ?_, hlen⟩
  rw [List.map_fst_zip (Nat.le_of_eq hlen)]
  exact hn

end Token.Decoded

end SelectiveDisclosure
