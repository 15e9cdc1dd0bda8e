import Mathlib.Data.List.Zip
import SelectiveDisclosure.Presenting
import SelectiveDisclosure.Proofs.Claims.Withholding
import SelectiveDisclosure.Proofs.Jws.Signing
import SelectiveDisclosure.Proofs.Token.Framing
import SelectiveDisclosure.Proofs.Token.Revealed

/-!
# Presented tokens

A presentation shows what is selected and what lies around it, and nothing else. So the disclosures
that it shows come with those around them, and reveal the claims without the values that are hidden.
-/

set_option autoImplicit false

namespace SelectiveDisclosure

open Json Reveal

namespace Selection
variable {s : Selection} {placed : List (Disclosure × Pointer)}

/-- What stands at the place is selected, or something inside it is. -/
def shows (s : Selection) (placed : List (Disclosure × Pointer)) (place : Pointer) : Bool :=
  placed.any fun e => s e.2 e.1 && (e.2 = place || place.isAncestorOf e.2)

def hides (s : Selection) (placed : List (Disclosure × Pointer)) (path : List String) : Bool :=
  placed.any fun e => e.2.decoded = path && !s.shows placed e.2

def kept (s : Selection) (placed : List (Disclosure × Pointer)) : List Disclosure :=
  (placed.filter fun e => s.shows placed e.2).map Prod.fst

theorem shows_iff {place : Pointer} :
    s.shows placed place = true ↔ ∃ d p, (d, p) ∈ placed ∧ s p d = true ∧
      (p = place ∨ place.isAncestorOf p = true) := by
  rw [shows, List.any_eq_true]
  constructor
  · rintro ⟨⟨d, p⟩, hm, h⟩
    rw [Bool.and_eq_true, Bool.or_eq_true, decide_eq_true_eq] at h
    exact ⟨d, p, hm, h⟩
  · rintro ⟨d, p, hm, h⟩
    refine ⟨(d, p), hm, ?_⟩
    rw [Bool.and_eq_true, Bool.or_eq_true, decide_eq_true_eq]
    exact h

theorem mem_kept {d : Disclosure} :
    d ∈ s.kept placed ↔ ∃ p, (d, p) ∈ placed ∧ s.shows placed p = true := by
  rw [kept, List.mem_map]
  constructor
  · rintro ⟨⟨e, p⟩, hm, rfl⟩
    exact ⟨p, List.mem_filter.1 hm⟩
  · rintro ⟨p, hm⟩
    exact ⟨(d, p), List.mem_filter.2 hm, rfl⟩

theorem shows_of_isAncestorOf {p q : Pointer} (hp : s.shows placed p = true)
    (h : q.isAncestorOf p = true) : s.shows placed q = true := by
  obtain ⟨d, r, hm, hs, hr⟩ := shows_iff.1 hp
  refine shows_iff.2 ⟨d, r, hm, hs, .inr ?_⟩
  rcases hr with rfl | hr
  · exact h
  · rw [Pointer.isAncestorOf_iff] at h hr ⊢
    refine ⟨h.1.trans hr.1, fun heq => h.2 ?_⟩
    exact h.1.eq_of_length (Nat.le_antisymm h.1.length_le (heq ▸ hr.1.length_le))

section Distinct
variable (hd : (placed.map fun e => e.1.encoded).Nodup)
include hd

theorem eq_of_encoded {d e : Disclosure} {p q : Pointer} (hp : (d, p) ∈ placed)
    (hq : (e, q) ∈ placed) (h : d.encoded = e.encoded) : d = e ∧ p = q := by
  have heq := List.inj_on_of_nodup_map hd hp hq h
  exact Prod.mk.inj heq

theorem mem_kept_iff {d : Disclosure} {p : Pointer} (hm : (d, p) ∈ placed) :
    d ∈ s.kept placed ↔ s.shows placed p = true := by
  rw [mem_kept]
  constructor
  · rintro ⟨q, hq, hs⟩
    rwa [(eq_of_encoded hd hm hq rfl).2]
  · exact fun hs => ⟨p, hm, hs⟩

theorem encoded_mem_kept_iff {d : Disclosure} {p : Pointer} (hm : (d, p) ∈ placed) :
    d.encoded ∈ (s.kept placed).map Disclosure.encoded ↔ s.shows placed p = true := by
  rw [← mem_kept_iff hd hm, List.mem_map]
  constructor
  · rintro ⟨e, he, heq⟩
    obtain ⟨q, hq, -⟩ := mem_kept.1 he
    rwa [← (eq_of_encoded hd hq hm heq).1]
  · exact fun hkept => ⟨d, hkept, rfl⟩

theorem ancestorClosed_kept : AncestorClosed placed (s.kept placed) := by
  intro d p hm hkept e q hq hanc
  rw [mem_kept_iff hd hm] at hkept
  rw [mem_kept_iff hd hq]
  exact shows_of_isAncestorOf hkept hanc

theorem isWithheld_kept : isWithheld placed (s.kept placed) = s.hides placed := by
  funext path
  rw [isWithheld, hides]
  have hsame : ∀ e ∈ placed, ((s.kept placed).any fun d => d.encoded = e.1.encoded) =
      s.shows placed e.2 := by
    rintro ⟨d, p⟩ hm
    rw [Bool.eq_iff_iff, List.any_eq_true, ← mem_kept_iff hd hm]
    constructor
    · rintro ⟨e, he, heq⟩
      obtain ⟨q, hq, hs⟩ := mem_kept.1 he
      rwa [(eq_of_encoded hd hm hq (of_decide_eq_true heq).symm).1]
    · exact fun hkept => ⟨d, hkept, decide_eq_true rfl⟩
  rw [Bool.eq_iff_iff, List.any_eq_true, List.any_eq_true]
  refine exists_congr fun e => and_congr_right fun he => ?_
  rw [hsame e he]

end Distinct

theorem kept_sublist {ds : List Disclosure} {ps : List Pointer} (hlen : ds.length ≤ ps.length) :
    (s.kept (ds.zip ps)).Sublist ds := by
  have hfst : (ds.zip ps).map Prod.fst = ds := List.map_fst_zip hlen
  rw [kept]
  conv => rhs; rw [← hfst]
  exact List.filter_sublist.map _

end Selection

/-! ## Shown disclosures -/

namespace Revealed
variable {r : Revealed} {s : Selection} {placed : List (Disclosure × Pointer)}

theorem mem_shown_iff (hperm : r.disclosures.Perm (placed.map Prod.swap)) {bs : Octets} :
    bs ∈ r.shown s ↔ ∃ d ∈ s.kept placed, d.encoded = bs := by
  have hmem {p : Pointer} {d : Disclosure} : (p, d) ∈ r.disclosures ↔ (d, p) ∈ placed := by
    rw [hperm.mem_iff, List.mem_map]
    constructor
    · rintro ⟨⟨e, q⟩, hm, heq⟩
      cases heq
      exact hm
    · exact fun hm => ⟨(d, p), hm, rfl⟩
  have hselected {q : Pointer} : q ∈ (r.disclosures.select s).places ↔
      ∃ d, (d, q) ∈ placed ∧ s q d = true := by
    rw [DisclosureMap.places, DisclosureMap.select, List.mem_map]
    constructor
    · rintro ⟨⟨p, d⟩, hm, rfl⟩
      obtain ⟨hm, hs⟩ := List.mem_filter.1 hm
      exact ⟨d, hmem.1 hm, hs⟩
    · rintro ⟨d, hm, hs⟩
      exact ⟨(q, d), List.mem_filter.2 ⟨hmem.2 hm, hs⟩, rfl⟩
  have haround {p : Pointer} : ((r.disclosures.select s).places.any fun q =>
      q = p || p.isAncestorOf q) = true ↔ s.shows placed p = true := by
    rw [Selection.shows_iff, List.any_eq_true]
    constructor
    · rintro ⟨q, hq, h⟩
      obtain ⟨d, hm, hs⟩ := hselected.1 hq
      rw [Bool.or_eq_true, decide_eq_true_eq] at h
      exact ⟨d, q, hm, hs, h⟩
    · rintro ⟨d, q, hm, hs, h⟩
      refine ⟨q, hselected.2 ⟨d, hm, hs⟩, ?_⟩
      rw [Bool.or_eq_true, decide_eq_true_eq]
      exact h
  rw [shown, DisclosureMap.encoded, DisclosureMap.upTo, List.mem_map]
  constructor
  · rintro ⟨⟨p, d⟩, hm, rfl⟩
    obtain ⟨hm, h⟩ := List.mem_filter.1 hm
    exact ⟨d, Selection.mem_kept.2 ⟨p, hmem.1 hm, haround.1 h⟩, rfl⟩
  · rintro ⟨d, hd, rfl⟩
    obtain ⟨p, hm, hs⟩ := Selection.mem_kept.1 hd
    exact ⟨(p, d), List.mem_filter.2 ⟨hmem.2 hm, haround.2 hs⟩, rfl⟩

theorem filter_shown (hperm : r.disclosures.Perm (placed.map Prod.swap))
    (hd : (placed.map fun e => e.1.encoded).Nodup) :
    ((placed.map fun e => e.1.encoded).filter fun bs => (r.shown s).contains bs) =
      (s.kept placed).map Disclosure.encoded := by
  rw [List.filter_map, Selection.kept, List.map_map]
  congr 1
  apply List.filter_congr
  rintro ⟨d, p⟩ hm
  show (r.shown s).contains d.encoded = s.shows placed p
  rw [Bool.eq_iff_iff, List.contains_iff_mem, mem_shown_iff hperm, ← Selection.mem_kept_iff hd hm]
  constructor
  · rintro ⟨e, he, heq⟩
    obtain ⟨q, hq, hs⟩ := Selection.mem_kept.1 he
    rwa [← (Selection.eq_of_encoded hd hq hm heq).1]
  · exact fun hkept => ⟨d, hkept, rfl⟩

end Revealed

/-! ## Tokens that are read -/

/-- A signed payload and disclosures that are all read, and reveal claims at these places. -/
structure Reads (f : DigestFunction) (jwt : Jws) (d : Jws.Decoded Octets) (payload : Payload)
    (ds : List Disclosure) (claims : Members) (ps : List Pointer) : Prop where
  decoded : jwt.decode = .ok d
  content : Payload.ofOctets d.payload = .ok payload
  disclosures : ∀ e ∈ ds, Disclosure.decode e.encoded = .ok e
  reveal : payload.reveal f ds = .ok (claims, ps)

namespace Reads
variable {f : DigestFunction} {jwt : Jws} {d : Jws.Decoded Octets} {payload : Payload}
  {ds : List Disclosure} {claims : Members} {ps : List Pointer}
  (h : Reads f jwt d payload ds claims ps)
include h

theorem sorted_claims : Value.Sorted (.object payload.claims) :=
  Payload.sorted_of_ofOctets h.content

theorem sorted_disclosures : ∀ e ∈ ds, Value.Sorted e.concealed.value :=
  fun e he => (Disclosure.decode_eq_ok (h.disclosures e he)).2.2

theorem isEncoded : ∀ bs ∈ ds.map Disclosure.encoded, Disclosure.isEncoded bs = true := by
  intro bs hbs
  obtain ⟨e, he, rfl⟩ := List.mem_map.1 hbs
  exact (Disclosure.decode_eq_ok (h.disclosures e he)).1

theorem length_places : ps.length = ds.length :=
  (Payload.nodup_places h.sorted_claims h.sorted_disclosures h.reveal).1

theorem map_encoded : (ds.zip ps).map (fun e => e.1.encoded) = ds.map Disclosure.encoded := by
  have hfst : (ds.zip ps).map Prod.fst = ds := List.map_fst_zip (Nat.le_of_eq h.length_places.symm)
  conv => rhs; rw [← hfst]
  rw [List.map_map]
  rfl

theorem nodup_encoded : ((ds.zip ps).map fun e => e.1.encoded).Nodup := by
  obtain ⟨o, ho, -⟩ := Payload.exists_reveals h.sorted_claims h.sorted_disclosures h.reveal
  have hsame : ((fun bs => digestUnder f payload.algorithm ⟨bs, "", .item .null⟩) ∘
      Disclosure.encoded) = digestUnder f payload.algorithm := by
    funext e
    cases payload.algorithm <;> rfl
  rw [h.map_encoded]
  apply List.Nodup.of_map (fun bs => digestUnder f payload.algorithm ⟨bs, "", .item .null⟩)
  rw [List.map_map, hsame]
  exact ho.distinct

theorem keep (s : Selection) :
    ∃ qs, Reads f jwt d payload (s.kept (ds.zip ps))
      (Value.withoutMembers (s.hides (ds.zip ps)) claims) qs := by
  have hsub : (s.kept (ds.zip ps)).Sublist ds :=
    Selection.kept_sublist (Nat.le_of_eq h.length_places.symm)
  obtain ⟨o, ho, hclaims⟩ :=
    Payload.exists_reveals h.sorted_claims h.sorted_disclosures h.reveal
  obtain ⟨qs, hqs⟩ := Payload.reveal_of_ancestorClosed ho hsub hclaims h.reveal
    (Selection.ancestorClosed_kept h.nodup_encoded)
  rw [Selection.isWithheld_kept h.nodup_encoded] at hqs
  exact ⟨qs, h.decoded, h.content, fun e he => h.disclosures e (hsub.subset he), hqs⟩

theorem decode_parts (kb : Option Jws) :
    Parts.decode ⟨jwt, ds.map Disclosure.encoded, kb⟩ = .ok ⟨d.withPayload payload, ds⟩ := by
  refine Parts.decode_eq_ok_iff.2 ⟨d, payload, h.decoded, h.content, rfl, ?_⟩
  rw [List.map_map]
  exact List.map_congr_left h.disclosures

theorem exists_reveal :
    ∃ r, Token.Decoded.reveal f ⟨d.withPayload payload, ds⟩ = .ok r ∧ r.claims = claims ∧
      r.jwt.header = d.header ∧ r.algorithm = payload.algorithm ∧
      r.disclosures.Perm ((ds.zip ps).map Prod.swap) := by
  have hreveal : Token.Decoded.reveal f ⟨d.withPayload payload, ds⟩ =
      .ok ⟨d.withPayload claims, payload.algorithm, .ofList (ps.zip ds)⟩ := by
    show (payload.reveal f ds >>= _) = _
    rw [h.reveal]
    rfl
  obtain ⟨-, hnodup⟩ := Payload.nodup_places h.sorted_claims h.sorted_disclosures h.reveal
  refine ⟨_, hreveal, rfl, rfl, rfl, ?_⟩
  rw [List.zip_swap]
  apply DisclosureMap.perm_ofList
  rwa [List.map_fst_zip (Nat.le_of_eq h.length_places)]

theorem exists_token_reveal {t : Token} (ht : t.parts = ⟨jwt, ds.map Disclosure.encoded, none⟩) :
    ∃ r, t.reveal f = .ok r ∧ r.algorithm = payload.algorithm ∧
      r.disclosures.Perm ((ds.zip ps).map Prod.swap) := by
  obtain ⟨r, hreveal, -, -, halgorithm, hperm⟩ := h.exists_reveal
  refine ⟨r, ?_, halgorithm, hperm⟩
  rw [Token.reveal, ht, Parts.reveal, h.decode_parts]
  exact hreveal

/-! ## Presentations -/

theorem showing_shown {t : Token} (ht : t.parts = ⟨jwt, ds.map Disclosure.encoded, none⟩)
    {r : Revealed} (hperm : r.disclosures.Perm ((ds.zip ps).map Prod.swap)) (s : Selection) :
    t.showing (r.shown s) =
      Parts.octets ⟨jwt, (s.kept (ds.zip ps)).map Disclosure.encoded, none⟩ := by
  have hjwt : t.jwt = jwt := congrArg Parts.jwt ht
  have hds : t.disclosures = ds.map Disclosure.encoded := congrArg Parts.disclosures ht
  rw [Token.showing, hjwt, hds, ← h.map_encoded, Revealed.filter_shown hperm h.nodup_encoded]

end Reads

/-- A signer that signs whatever it is given, and never with an empty signature. -/
structure Signer.Signs (s : Signer) : Prop where
  info : ∃ info, s.info = .ok info
  signature : ∀ bs, ∃ signature, s.sign bs = .ok signature ∧ signature ≠ []

/-- A challenge is answered by a key binding, and without a challenge there is none. -/
inductive Answers (f : DigestFunction) (holder : Signer) (algorithm : HashAlgorithm)
    (front : Octets) : Option Challenge → Option Jws → Prop where
  | unbound : Answers f holder algorithm front none none
  | bound {c : Challenge} {jwt : Jws}
    (h : Token.bindTo f holder algorithm c front = .ok jwt) :
    Answers f holder algorithm front (some c) (some jwt)

theorem Reads.exists_present {f : DigestFunction} {jwt : Jws} {d : Jws.Decoded Octets}
    {payload : Payload} {ds : List Disclosure} {claims : Members} {ps : List Pointer}
    (h : Reads f jwt d payload ds claims ps) {t : Token}
    (ht : t.parts = ⟨jwt, ds.map Disclosure.encoded, none⟩) (holder : Signer) (s : Selection)
    (challenge : Option Challenge) (hsigns : challenge.isSome = true → holder.Signs) :
    ∃ kb, Answers f holder (payload.algorithm.getD .sha256)
        (Parts.octets ⟨jwt, (s.kept (ds.zip ps)).map Disclosure.encoded, none⟩) challenge kb ∧
      t.present f holder s challenge =
        .ok (Parts.octets ⟨jwt, (s.kept (ds.zip ps)).map Disclosure.encoded, kb⟩) := by
  obtain ⟨r, hr, halgorithm, hperm⟩ := h.exists_token_reveal ht
  have hfront := h.showing_shown ht hperm s
  rw [Token.present, hr]
  cases challenge with
  | none =>
    refine ⟨none, .unbound, ?_⟩
    rw [← hfront]
    rfl
  | some c =>
    obtain ⟨info, hinfo⟩ := (hsigns rfl).info
    obtain ⟨signature, hsign, hne⟩ := (hsigns rfl).signature
      ((Signer.header info (some KeyBinding.tokenType)).signingOctets
        (c.keyBinding (f (payload.algorithm.getD .sha256)
          (Parts.octets ⟨jwt, (s.kept (ds.zip ps)).map Disclosure.encoded, none⟩))).written.octets)
    obtain ⟨kb, hkb⟩ := Signer.exists_signPayload hinfo hsign hne
    refine ⟨some kb, .bound hkb, ?_⟩
    have hbind : Token.bindTo f holder r.digestAlgorithm c (t.showing (r.shown s)) = .ok kb := by
      rw [hfront, Revealed.digestAlgorithm, halgorithm]
      exact hkb
    rw [Presentation.octets_eq, ← hfront]
    show (Token.bindTo f holder r.digestAlgorithm c (t.showing (r.shown s))).mapError _ >>= _ = _
    rw [hbind]
    rfl

/-! ## What is disclosed -/

/-- The place is selected, or something selected lies below it. -/
def Selection.Needs (s : Selection) (r : Revealed) (place : Pointer) : Prop :=
  ∃ q e, (q, e) ∈ r.disclosures ∧ s q e = true ∧ (place = q ∨ place.isAncestorOf q = true)

namespace Token
variable {f : DigestFunction} {t : Token} {r : Revealed}

theorem exists_reads_of_reveal (h : t.reveal f = .ok r) :
    ∃ d payload ds ps, Reads f t.jwt d payload ds r.claims ps ∧
      t.parts = ⟨t.jwt, ds.map Disclosure.encoded, none⟩ ∧
      r.disclosures.Perm ((ds.zip ps).map Prod.swap) := by
  simp only [reveal, Parts.reveal, bind_eq_ok_iff, mapError_eq_ok_iff] at h
  obtain ⟨u, hdecode, hreveal⟩ := h
  obtain ⟨d, payload, hd, hpayload, hjwt, hds⟩ := Parts.decode_eq_ok_iff.1 hdecode
  obtain ⟨hencoded, hdecoded⟩ := Disclosure.map_decode_eq_ok hds
  have hclaims : u.jwt.payload = payload := by rw [hjwt]; rfl
  obtain ⟨hsorted, hvalues⟩ := Parts.sorted_of_decode hdecode
  obtain ⟨ps, hps, -, -, hperm, -⟩ := Decoded.reveal_eq_ok hsorted hvalues hreveal
  refine ⟨d, payload, u.disclosures, ps, ⟨hd, hpayload, hdecoded, hclaims ▸ hps⟩, ?_, ?_⟩
  · rw [← hencoded]
    rfl
  · rwa [List.zip_swap]

/-- A presentation without a key binding shows what the selection needs, in the old order, and
nothing else; it can always be revealed. -/
theorem present_needed (f : DigestFunction) (t : Token) (holder : Signer) (s : Selection)
    (r : Revealed) (h : t.reveal f = .ok r) :
    (r.disclosures.map fun e => e.2.encoded).Perm t.disclosures ∧
    ∃ t' : Token, t.present f holder s none = .ok t'.octets ∧ t'.jwt = t.jwt ∧
      t'.disclosures.Sublist t.disclosures ∧ t'.disclosures.Nodup ∧
      (∀ place d, (place, d) ∈ r.disclosures →
        (d.encoded ∈ t'.disclosures ↔ s.Needs r place)) ∧
      ∃ r', t'.reveal f = .ok r' := by
  obtain ⟨d, payload, ds, ps, hreads, hparts, hperm⟩ := exists_reads_of_reveal h
  have hds : t.disclosures = ds.map Disclosure.encoded := congrArg Parts.disclosures hparts
  have hmem {p : Pointer} {e : Disclosure} : (p, e) ∈ r.disclosures ↔ (e, p) ∈ ds.zip ps := by
    rw [hperm.mem_iff]
    exact List.mem_map_swap e p _
  obtain ⟨qs, hkept⟩ := hreads.keep s
  obtain ⟨t', ht', hparts'⟩ := exists_ofOctets? t.jwt hkept.isEncoded
  have hds' : t'.disclosures = (s.kept (ds.zip ps)).map Disclosure.encoded :=
    congrArg Parts.disclosures hparts'
  have hsub : t'.disclosures.Sublist t.disclosures := by
    rw [hds, hds']
    exact (Selection.kept_sublist (Nat.le_of_eq hreads.length_places.symm)).map _
  refine ⟨?_, t', ?_, congrArg Parts.jwt hparts', hsub, ?_, ?_, ?_⟩
  · rw [hds, ← hreads.map_encoded]
    have hmap := hperm.map fun e => e.2.encoded
    rwa [List.map_map] at hmap
  · obtain ⟨kb, hanswers, hpresent⟩ := hreads.exists_present hparts holder s none nofun
    cases hanswers
    rw [hpresent, ← hparts', t'.octets_parts.1]
  · apply List.Nodup.sublist hsub
    rw [hds, ← hreads.map_encoded]
    exact hreads.nodup_encoded
  · intro place e he
    rw [hds', Selection.encoded_mem_kept_iff hreads.nodup_encoded (hmem.1 he), Selection.shows_iff]
    constructor
    · rintro ⟨e', q, hq, hs, rfl | hanc⟩
      · exact ⟨_, e', hmem.2 hq, hs, .inl rfl⟩
      · exact ⟨_, e', hmem.2 hq, hs, .inr hanc⟩
    · rintro ⟨q, e', hq, hs, rfl | hanc⟩
      · exact ⟨e', _, hmem.1 hq, hs, .inl rfl⟩
      · exact ⟨e', _, hmem.1 hq, hs, .inr hanc⟩
  · obtain ⟨r', hr', -⟩ := hkept.exists_token_reveal hparts'
    exact ⟨r', hr'⟩

/-- A member `b` inside a member `a`, with an item between their disclosures, and digests of
SHA-256. -/
def nestedToken : Octets := Octets.ofText <|
  "eyJhbGciOiJFUzI1NiJ9.eyJfc2QiOlsiVERQNEN5d2pmelF4RjBTRmtWMmtBejFtT29CcHlwdHhEOVZzN0t2VzFJayJd" ++
  "LCJfc2RfYWxnIjoic2hhLTI1NiIsImwiOlt7Ii4uLiI6Ik91NFllaTVrUC10czRPeGwyNnhiMF9kZ1BReDY2c3hKTkdoT" ++
  "EhQYUtxZ1UifV19.AA~WyJzIiwiYiIsMV0~WyJzIiwyXQ~WyJzIiwiYSIseyJfc2QiOlsiaXBfMHVPTU5VeXpHTnpqZnl" ++
  "lMWlZM2RReDk0Y0ptWVVVSjZlQnR4dlVrMCJdfV0~"

theorem present_needed_nested :
    ∃ (t : Token) (r : Revealed) (t' : Token),
      ofOctets? nestedToken = some t ∧ t.reveal HashAlgorithm.digest = .ok r ∧
      t.present HashAlgorithm.digest ⟨.error .missingAlgorithm, fun bs => .ok bs⟩
        (fun p _ => p.text == "/a/b") none = .ok t'.octets ∧
      t'.disclosures.Sublist t.disclosures ∧ t'.disclosures.Nodup ∧
      (∀ place d, (place, d) ∈ r.disclosures →
        (d.encoded ∈ t'.disclosures ↔ Selection.Needs (fun p _ => p.text == "/a/b") r place)) ∧
      ∃ r', t'.reveal HashAlgorithm.digest = .ok r' := by
  have hok : ((ofOctets? nestedToken).bind fun t =>
      (t.reveal HashAlgorithm.digest).toOption).isSome = true := by
    decide +kernel
  obtain ⟨r, hr⟩ := Option.isSome_iff_exists.1 hok
  simp only [Option.bind_eq_some_iff, toOption_eq_some_iff] at hr
  obtain ⟨t, ht, hr⟩ := hr
  obtain ⟨-, t', hpresent, -, hrest⟩ := present_needed HashAlgorithm.digest t
    ⟨.error .missingAlgorithm, fun bs => .ok bs⟩ (fun p _ => p.text == "/a/b") r hr
  exact ⟨t, r, t', ht, hr, hpresent, hrest⟩

end Token

end SelectiveDisclosure
