import SelectiveDisclosure.Proofs.Claims.Order
import SelectiveDisclosure.Proofs.Compact

/-!
# Tokens encoded again

What was revealed is encoded again with its disclosures in ascending order of their places, and
then reveals the same. Given places divide the disclosures into those that stand there and all the
others, whichever of the two are kept.
-/

set_option autoImplicit false

namespace SelectiveDisclosure

/-! ## Dividing a map -/

namespace DisclosureMap
variable {m rest : DisclosureMap} {p : Pointer} {d : Disclosure}

theorem Ascending.nodup_places (h : m.Ascending) : m.places.Nodup := by
  refine List.pairwise_map.2 (h.imp ?_)
  intro a b hlt heq
  exact Pointer.lt_irrefl _ (heq ▸ hlt)

theorem ascending_insert (h : m.Ascending) : (insert p d m).Ascending := by
  have hplaces : (insert p d m).places.Pairwise fun a b => a < b := by
    rw [places_insert]
    exact Pointer.pairwise_insertAscending (List.pairwise_map.2 h)
  exact List.pairwise_map.1 hplaces

theorem notMem_places_of_remove? (h : remove? p m = none) : p ∉ m.places := by
  induction m with
  | nil => exact List.not_mem_nil
  | cons e r ih =>
    obtain ⟨q, e⟩ := e
    rw [remove?] at h
    by_cases hp : p = q
    · rw [if_pos hp] at h
      cases h
    · rw [if_neg hp, Option.map_eq_none_iff] at h
      exact fun hmem => (List.mem_cons.1 hmem).elim hp (ih h)

theorem perm_of_remove? (h : remove? p m = some (d, rest)) :
    m.Perm ((p, d) :: rest) ∧ rest.Sublist m := by
  induction m generalizing rest with
  | nil => cases h
  | cons e r ih =>
    obtain ⟨q, e⟩ := e
    rw [remove?] at h
    by_cases hp : p = q
    · rw [if_pos hp] at h
      cases h
      exact ⟨hp ▸ List.Perm.refl _, List.sublist_cons_self _ _⟩
    · rw [if_neg hp, Option.map_eq_some_iff] at h
      obtain ⟨⟨d', rest'⟩, hr, h⟩ := h
      cases h
      obtain ⟨hperm, hsub⟩ := ih hr
      exact ⟨(hperm.cons _).trans (List.Perm.swap ..), hsub.cons_cons _⟩

/-- Taken are the entries at the places, in whatever order and however often these are given, and
left are all the others. -/
theorem take_eq (hm : m.Ascending) (ps : List Pointer) :
    take ps m = (m.filter fun e => e.1 ∈ ps, m.filter fun e => e.1 ∉ ps) := by
  induction ps generalizing m with
  | nil => simp [take]
  | cons p ps ih =>
    rw [take]
    cases hr : remove? p m with
    | none =>
      have hne : ∀ e ∈ m, e.1 ≠ p := fun e he heq =>
        notMem_places_of_remove? hr (List.mem_map.2 ⟨e, he, heq⟩)
      dsimp only
      rw [ih hm]
      congr 1 <;> exact List.filter_congr fun e he => by simp [hne e he]
    | some removed =>
      obtain ⟨d, rest⟩ := removed
      obtain ⟨hperm, hsub⟩ := perm_of_remove? hr
      have hrest : rest.Ascending := hm.sublist hsub
      have hfresh : p ∉ rest.places :=
        (List.nodup_cons.1 ((hperm.map Prod.fst).nodup_iff.1 hm.nodup_places)).1
      have hne : ∀ e ∈ rest, e.1 ≠ p := fun e he heq => hfresh (List.mem_map.2 ⟨e, he, heq⟩)
      dsimp only
      rw [ih hrest]
      congr 1
      · refine (ascending_insert (hrest.filter _)).eq_of_perm (hm.filter _) ?_
        have hnot : p ∉ (rest.filter fun e => e.1 ∈ ps).map Prod.fst := fun hmem =>
          hfresh ((List.filter_sublist.map Prod.fst).subset hmem)
        refine (perm_insert hnot).trans (List.Perm.trans ?_ (hperm.filter _).symm)
        rw [List.filter_cons_of_pos (by simp)]
        refine List.Perm.cons _ (List.Perm.of_eq (List.filter_congr fun e he => ?_))
        simp [hne e he]
      · refine Ascending.eq_of_perm (hrest.filter _) (hm.filter _) ?_
        refine List.Perm.trans ?_ (hperm.filter _).symm
        rw [List.filter_cons_of_neg (by simp)]
        refine List.Perm.of_eq (List.filter_congr fun e he => ?_)
        simp [hne e he]

end DisclosureMap

/-! ## Decoding again -/

namespace Parts

theorem decode_perm {p : Parts} {u : Token.Decoded} (h : p.decode = .ok u) {ds : List Disclosure}
    (hperm : ds.Perm u.disclosures) :
    decode ⟨p.jwt, ds.map Disclosure.encoded, p.keyBinding⟩ = .ok ⟨u.jwt, ds⟩ := by
  obtain ⟨d, payload, hd, hpayload, hjwt, hds⟩ := decode_eq_ok_iff.1 h
  refine decode_eq_ok_iff.2 ⟨d, payload, hd, hpayload, hjwt, ?_⟩
  rw [List.map_map]
  exact List.map_congr_left fun e he =>
    (Disclosure.map_decode_eq_ok hds).2 e (hperm.mem_iff.1 he)

end Parts

namespace Token.Decoded
variable {f : DigestFunction} {u : Decoded} {r : Revealed}

theorem ascending_of_reveal (h : u.reveal f = .ok r) : r.disclosures.Ascending := by
  simp only [reveal, bind_eq_ok_iff, Prod.exists] at h
  obtain ⟨claims, ps, -, h⟩ := h
  cases h
  exact DisclosureMap.pairwise_ofList _

theorem nodup_encoded_of_reveal (h : u.reveal f = .ok r) :
    (u.disclosures.map Disclosure.encoded).Nodup := by
  simp only [reveal, bind_eq_ok_iff, Prod.exists] at h
  obtain ⟨claims, ps, h, -⟩ := h
  obtain ⟨table, w, htable, -, -⟩ := Payload.reveal_eq_ok_iff.1 h
  obtain ⟨hdistinct, -, -⟩ := Reveal.table_eq_ok_iff.1 htable
  refine List.pairwise_map.2 ((List.pairwise_map.1 hdistinct).imp ?_)
  intro d e hne heq
  apply hne
  cases u.jwt.payload.algorithm with
  | none => rfl
  | some a => exact congrArg (f a) heq

end Token.Decoded

namespace Token
variable {f : DigestFunction} {t : Token} {r : Revealed}

structure DecodedFor (f : DigestFunction) (t : Token) (r : Revealed) (u : Decoded) : Prop where
  decode : t.parts.decode = .ok u
  reveal : u.reveal f = .ok r
  claims : Json.Value.Sorted (.object u.jwt.payload.claims)
  values : ∀ d ∈ u.disclosures, Json.Value.Sorted d.concealed.value
  encoded : t.disclosures = u.disclosures.map Disclosure.encoded

theorem exists_decodedFor (h : t.reveal f = .ok r) : ∃ u, DecodedFor f t r u := by
  simp only [reveal, Parts.reveal, bind_eq_ok_iff, mapError_eq_ok_iff] at h
  obtain ⟨u, hdecode, hreveal⟩ := h
  obtain ⟨-, -, -, -, -, hds⟩ := Parts.decode_eq_ok_iff.1 hdecode
  obtain ⟨hclaims, hvalues⟩ := Parts.sorted_of_decode hdecode
  exact ⟨u, hdecode, hreveal, hclaims, hvalues, (Disclosure.map_decode_eq_ok hds).1⟩

theorem DecodedFor.perm {u : Decoded} (h : DecodedFor f t r u) :
    (r.disclosures.map Prod.snd).Perm u.disclosures := by
  obtain ⟨ps, -, -, -, hmap, hlength⟩ := Decoded.reveal_eq_ok h.claims h.values h.reveal
  have hsnd := hmap.map Prod.snd
  rwa [List.map_snd_zip (Nat.le_of_eq hlength.symm)] at hsnd

/-! ## Encoding again -/

/-- The octets are a token of the JWS with exactly the disclosures of the map, in its order. -/
def Writes (jwt : Jws) (m : DisclosureMap) (bs : Octets) : Prop :=
  ∃ t, ofOctets? bs = some t ∧ t.jwt = jwt ∧ t.disclosures = m.map fun e => e.2.encoded

structure Reencoded (f : DigestFunction) (t : Token) (r : Revealed) (t' : Token) : Prop where
  octets : t'.octets = r.encode
  jwt : t'.jwt.octets = t.jwt.octets
  disclosures : t'.disclosures = r.disclosures.map fun e => e.2.encoded
  ascending : r.disclosures.Ascending
  once : t'.disclosures.Nodup ∧ t'.disclosures.Perm t.disclosures
  reveals : t'.reveal f = .ok r
  again : ∀ r', t'.reveal f = .ok r' → r'.encode = t'.octets

/-- The disclosures at the places and all others: one of these is kept and written, and the other
one taken out. -/
structure Divides (t : Token) (r : Revealed) (ps : List Pointer) : Prop where
  retain : r.retain ps = ({ r with disclosures := r.disclosures.filter fun e => e.1 ∈ ps },
    r.disclosures.filter fun e => e.1 ∉ ps)
  retained : Writes t.jwt (r.disclosures.filter fun e => e.1 ∈ ps) (r.retain ps).1.encode
  reject : r.reject ps = ({ r with disclosures := r.disclosures.filter fun e => e.1 ∉ ps },
    r.disclosures.filter fun e => e.1 ∈ ps)
  rejected : Writes t.jwt (r.disclosures.filter fun e => e.1 ∉ ps) (r.reject ps).1.encode

theorem exists_reencoded (h : t.reveal f = .ok r) :
    ∃ t', ofOctets? r.encode = some t' ∧ Reencoded f t r t' := by
  obtain ⟨t', ht', hparts⟩ := (Revealed.revealedFrom_of_reveal h).exists_parts
  obtain ⟨u, hu⟩ := exists_decodedFor h
  have hencoded : (r.disclosures.map fun e => e.2.encoded) =
      (r.disclosures.map Prod.snd).map Disclosure.encoded := by
    rw [List.map_map]
    rfl
  have hdisclosures : t'.disclosures = (r.disclosures.map Prod.snd).map Disclosure.encoded :=
    (congrArg Parts.disclosures hparts).trans hencoded
  have hreveals : t'.reveal f = .ok r := by
    simp only [reveal, Parts.reveal, bind_eq_ok_iff, mapError_eq_ok_iff]
    refine ⟨⟨u.jwt, r.disclosures.map Prod.snd⟩, ?_,
      Decoded.reveal_perm_of_ok hu.claims hu.values hu.perm.symm hu.reveal⟩
    rw [hparts, hencoded]
    exact Parts.decode_perm hu.decode hu.perm
  refine ⟨t', ht', ?_⟩
  exact {
    octets := octets_of_ofOctets? ht'
    jwt := congrArg (fun p : Parts => p.jwt.octets) hparts
    disclosures := congrArg Parts.disclosures hparts
    ascending := Decoded.ascending_of_reveal hu.reveal
    once := by
      rw [hdisclosures, hu.encoded]
      exact ⟨(hu.perm.map _).nodup_iff.2 (Decoded.nodup_encoded_of_reveal hu.reveal),
        hu.perm.map _⟩
    reveals := hreveals
    again := fun r' hr' => by
      rw [octets_of_ofOctets? ht', Except.ok.inj (hr'.symm.trans hreveals)] }

theorem writes_of_revealedFrom (h : Revealed.RevealedFrom t.parts r) :
    Writes t.jwt r.disclosures r.encode := by
  obtain ⟨t', ht', hparts⟩ := h.exists_parts
  exact ⟨t', ht', congrArg Parts.jwt hparts, congrArg Parts.disclosures hparts⟩

theorem divides_of_reveal (h : t.reveal f = .ok r) (ps : List Pointer) : Divides t r ps := by
  obtain ⟨u, hu⟩ := exists_decodedFor h
  have htake := DisclosureMap.take_eq (Decoded.ascending_of_reveal hu.reveal) ps
  have hfrom := Revealed.revealedFrom_of_reveal h
  have hretain : r.retain ps = ({ r with disclosures := r.disclosures.filter fun e => e.1 ∈ ps },
      r.disclosures.filter fun e => e.1 ∉ ps) := by
    rw [Revealed.retain, htake]
  have hreject : r.reject ps = ({ r with disclosures := r.disclosures.filter fun e => e.1 ∉ ps },
      r.disclosures.filter fun e => e.1 ∈ ps) := by
    rw [Revealed.reject, htake]
  have hretained := writes_of_revealedFrom (hfrom.edit (.retain ps))
  have hrejected := writes_of_revealedFrom (hfrom.edit (.reject ps))
  rw [Revealed.edit, hretain] at hretained
  rw [Revealed.edit, hreject] at hrejected
  exact ⟨hretain, hretain ▸ hretained, hreject, hreject ▸ hrejected⟩

/-- Encoding what a token reveals keeps the JWS to the octet and puts the disclosures in the order
of their places; nothing else is revealed then, and encoding again changes nothing. Places divide
the disclosures in two, of which either one can be kept. -/
theorem reencoded_of_reveal (f : DigestFunction) (t : Token) (r : Revealed)
    (h : t.reveal f = .ok r) :
    (∃ t', ofOctets? r.encode = some t' ∧ Reencoded f t r t') ∧ ∀ ps, Divides t r ps :=
  ⟨exists_reencoded h, divides_of_reveal h⟩

/-- Of the disclosures of an array and of its second item, the first goes without the other. -/
theorem reencoded_of_reveal_nested :
    ∃ (t : Token) (r : Revealed) (t' : Token),
      t.reveal HashAlgorithm.digest = .ok r ∧ r.disclosures.length = 2 ∧
      t'.reveal HashAlgorithm.digest = .ok r ∧ t'.octets = r.encode ∧
      (r.reject [⟨"/a/1", by decide⟩, .root, ⟨"/a/1", by decide⟩]).2 =
        r.disclosures.filter fun e => e.1 ∈ [⟨"/a/1", by decide⟩, .root, ⟨"/a/1", by decide⟩] := by
  have hrun : ((Issuer.issue HashAlgorithm.digest ⟨quotingSigner, .sha256, 0, some "~"⟩
      (fun n => [UInt8.ofNat n]) (.object [("a", .array [.bool true, .null])])
      [⟨"/a/1", by decide⟩, ⟨"/a", by decide⟩] none).toOption.bind
        fun issued => (Token.ofOctets? issued.octets).bind fun t =>
          (t.reveal HashAlgorithm.digest).toOption.map fun r =>
            r.disclosures.length) = some 2 := by
    decide +kernel
  simp only [Option.bind_eq_some_iff, Option.map_eq_some_iff, toOption_eq_some_iff] at hrun
  obtain ⟨issued, -, t, -, r, hr, hlength⟩ := hrun
  obtain ⟨⟨t', -, ht'⟩, hdivides⟩ := reencoded_of_reveal _ t r hr
  refine ⟨t, r, t', hr, hlength, ht'.reveals, ht'.octets, ?_⟩
  rw [(hdivides _).reject]

end Token

end SelectiveDisclosure
