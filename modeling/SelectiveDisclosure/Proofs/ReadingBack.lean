import SelectiveDisclosure.Proofs.Claims.Limits
import SelectiveDisclosure.Proofs.Json.Nesting
import SelectiveDisclosure.Proofs.Verification.Completeness

/-!
# Reading issued tokens

Writing knows no limit, but reading does. An issued token is read back as it was issued, and reveals
the claims that were given, exactly if its places leave room for their digests.
-/

set_option autoImplicit false

namespace SelectiveDisclosure

open Json

/-! ## What is too deep -/

theorem Concealed.depth_lt_salted (salt : String) (c : Concealed) :
    c.value.depth < (c.salted salt).depth := by
  cases c <;> exact Value.depth_lt_of_mem (by simp [Concealed.value])

theorem Disclosure.decode_ofParts_of_deep (salt : String) {c : Concealed}
    (h : 126 < c.value.depth) : decode (ofParts salt c).encoded = .error .malformed := by
  have hdeep : depthLimit < (c.salted salt).depth :=
    Nat.lt_of_le_of_lt h (c.depth_lt_salted salt)
  show decode (encode salt c) = _
  rw [decode, if_pos (isEncoded_encode salt c)]
  simp only [encode, Base64Url.decode_encode, Value.parseOctets?_octets_eq_none hdeep]

theorem Payload.ofOctets_written_of_deep {p : Payload}
    (h : depthLimit < (Value.object p.claims).depth) :
    ofOctets p.written.octets = .error .payload := by
  have hdeep : depthLimit < p.written.depth := by
    refine Nat.lt_of_lt_of_le h ?_
    obtain ⟨d, hd⟩ : ∃ d, p.written.depth = d + 1 := ⟨_, rfl⟩
    have hmembers := Value.depth_object_le_iff.1 (Nat.le_of_eq hd)
    rw [hd, Value.depth_object_le_iff]
    exact fun m hm => hmembers m (List.mem_append_right _ hm)
  rw [ofOctets, Value.parseOctets?_octets_eq_none hdeep]

theorem Parts.decodeDisclosures_of_malformed {bss : List Octets}
    (hall : ∀ bs ∈ bss, (∃ d, Disclosure.decode bs = .ok d) ∨
      Disclosure.decode bs = .error .malformed)
    (hone : ∃ bs ∈ bss, Disclosure.decode bs = .error .malformed) :
    decodeDisclosures bss = .error .malformedDisclosure := by
  induction bss with
  | nil =>
    obtain ⟨bs, hbs, -⟩ := hone
    cases hbs
  | cons bs r ih =>
    obtain ⟨hfirst, hrest⟩ := List.forall_mem_cons.1 hall
    rcases hfirst with ⟨d, hd⟩ | hmalformed
    · obtain ⟨b, hb, hmalformed⟩ := hone
      have hlater : b ∈ r := by
        rcases List.mem_cons.1 hb with rfl | hb
        · rw [hd] at hmalformed
          cases hmalformed
        · exact hb
      rw [decodeDisclosures, hd, ih hrest ⟨b, hlater, hmalformed⟩]
      rfl
    · rw [decodeDisclosures, hmalformed]
      rfl

namespace Issuer
variable {f : DigestFunction} {i : Issuer} {random : RandomSource} {claims : Members}
  {places : List Pointer} {holderKey : Option Jwk} {issued : Issued}

/-- Concealing keeps numbers as they are, so they are read back from the payload and from the
disclosures if they are from the claims. -/
theorem reread_of_conceals {how : Concealment} {payload : Payload} {ds : List Disclosure}
    (hs : Value.Sorted (.object claims)) (hnumbers : (Value.object claims).NumbersReadBack)
    (h : Payload.Conceals f how claims places payload ds) :
    payload.reread = payload ∧ ds.map Disclosure.reread = ds := by
  obtain ⟨hlen, hshaped, hdisclosed⟩ := Payload.shaped_of_conceals hs h
  constructor
  · have hclaims := Value.reread_eq_self (numbersReadBack_of_shaped hshaped hnumbers)
    rw [Value.reread, Value.object.injEq] at hclaims
    rw [Payload.reread, hclaims]
  · rw [List.map_congr_left (g := id), List.map_id]
    intro d hd
    rw [← Entry.map_snd_zip hlen] at hd
    obtain ⟨e, he, rfl⟩ := List.mem_map.1 hd
    obtain ⟨v₀, hpart, hvalue⟩ := hdisclosed e he
    exact Disclosure.reread_eq_self
      (numbersReadBack_of_shaped hvalue (Value.numbersReadBack_of_part hpart hnumbers))

/-! ## Claims at the limit -/

def inArrays (v : Value) : Nat → Value
  | 0 => v
  | k + 1 => .array [inArrays v k]

section InArrays
variable {v : Value}

theorem depth_inArrays (v : Value) (k : Nat) : (inArrays v k).depth = v.depth + k := by
  induction k with
  | zero => rfl
  | succ k ih => rw [inArrays, Value.depth, Value.depthItems, Value.depthItems, ih]; omega

theorem sorted_inArrays (h : Value.Sorted v) (k : Nat) : Value.Sorted (inArrays v k) := by
  induction k with
  | zero => exact h
  | succ k ih => exact ⟨ih, trivial⟩

theorem numbersReadBack_inArrays (h : v.NumbersReadBack) (k : Nat) :
    (inArrays v k).NumbersReadBack := by
  induction k with
  | zero => exact h
  | succ k ih => exact ⟨ih, trivial⟩

theorem reservedIn?_inArrays (v : Value) (k : Nat) :
    Conceal.reservedIn? (inArrays v k) = Conceal.reservedIn? v := by
  induction k with
  | zero => rfl
  | succ k ih =>
    rw [inArrays, Conceal.reservedIn?, Conceal.reservedInItems?, Conceal.reservedInItems?, ih,
      Option.or_none]

theorem inValue_inArrays (g : String) (k : Nat) :
    Digests.inValue (inArrays (Digests.placeholder g) (k + 1)) = [g] := by
  induction k with
  | zero => rfl
  | succ k ih =>
    show Digests.inValue (inArrays (Digests.placeholder g) (k + 1)) ++ [] = [g]
    rw [ih, List.append_nil]

theorem concealAt_inArrays (c : Concealer) (v : Value) (k draw : Nat) :
    c.concealAt (List.replicate (k + 1) ⟨"0"⟩) (inArrays v (k + 1)) draw =
      some ⟨.ofParts (c.salt draw) (.item v), inArrays (Digests.placeholder (c.digest
        (Disclosure.ofParts (c.salt draw) (.item v)).encoded)) (k + 1), draw + 1⟩ := by
  induction k with
  | zero => rfl
  | succ k ih =>
    show (do
      let i ← (⟨"0"⟩ : Pointer.Token).index?
      let u ← [inArrays v (k + 1)][i]?
      let step ← c.concealAt (List.replicate (k + 1) ⟨"0"⟩) u draw
      return { step with value := .array ([inArrays v (k + 1)].set i step.value) }) = _
    rw [show (⟨"0"⟩ : Pointer.Token).index? = some 0 by decide]
    simp only [Option.bind_eq_bind, Option.bind_some, List.getElem?_cons_zero, ih]
    rfl

end InArrays

def deepClaims (k : Nat) : Members :=
  [("a", inArrays .null k)]

def deepPlace (k : Nat) : Pointer :=
  Pointer.pushAll .root ("a" :: List.replicate k "0")

section DeepClaims
variable (k : Nat)

theorem depth_deepClaims : (Value.object (deepClaims k)).depth = k + 1 := by
  rw [deepClaims, Value.depth, Value.depthMembers, Value.depthMembers, depth_inArrays,
    show Value.null.depth = 0 by rfl]
  omega

theorem sorted_deepClaims : Value.Sorted (.object (deepClaims k)) :=
  Value.sorted_object_iff.2 ⟨List.pairwise_singleton _ _,
    List.forall_mem_singleton.2 (sorted_inArrays (v := .null) trivial k)⟩

theorem numbersReadBack_deepClaims : (Value.object (deepClaims k)).NumbersReadBack :=
  ⟨numbersReadBack_inArrays (v := .null) trivial k, trivial⟩

theorem parse?_deepClaims (h : k < depthLimit) :
    Value.parse? (Value.object (deepClaims k)).text = some (.object (deepClaims k)) := by
  have hdepth : (Value.object (deepClaims k)).depth ≤ depthLimit := by
    rw [depth_deepClaims]
    exact h
  rw [Value.parse?, Value.read?_text hdepth, Option.map_some,
    Value.reread_eq_self (numbersReadBack_deepClaims k),
    Value.sorted_eq_self (sorted_deepClaims k)]

theorem reservedInMembers?_deepClaims : Conceal.reservedInMembers? (deepClaims k) = none := by
  rw [Conceal.reservedInMembers?_eq_none_iff]
  intro m hm
  rw [List.mem_singleton.1 hm, reservedIn?_inArrays]
  exact ⟨(by decide : isReserved "a" = false), rfl⟩

theorem decoded_deepPlace : (deepPlace k).decoded = "a" :: List.replicate k "0" := by
  rw [deepPlace, Pointer.decoded_pushAll, Pointer.decoded_root, List.nil_append]

theorem tokens_deepPlace : (deepPlace k).tokens = ⟨"a"⟩ :: List.replicate k ⟨"0"⟩ := by
  rw [← Pointer.map_ofDecoded_decoded, decoded_deepPlace, List.map_cons, List.map_replicate]
  rfl

theorem checkNames_deepPlace (j : Nat) :
    Conceal.checkNames (deepClaims k) [deepPlace j] = .ok () := by
  have htokens : ([deepPlace j].flatMap Pointer.decoded).find? isReserved = none := by
    rw [List.flatMap_singleton, decoded_deepPlace, List.find?_eq_none]
    intro t ht
    rcases List.mem_cons.1 ht with rfl | ht
    · decide
    · rw [List.eq_of_mem_replicate ht]
      decide
  rw [Conceal.checkNames, reservedInMembers?_deepClaims, htokens]
  rfl

theorem isRoot_deepPlace : (deepPlace k).isRoot = false := by
  rw [Bool.eq_false_iff, Ne, Pointer.isRoot_iff, decoded_deepPlace]
  exact List.cons_ne_nil _ _

theorem conceal_singleton {f : DigestFunction} {how : Concealment} {claims claims' : Members}
    {p : Pointer} {d : Disclosure} {draw : Nat}
    (hnames : Conceal.checkNames claims [p] = .ok ()) (hroot : p.isRoot = false)
    (hstep : (Payload.concealer f how).concealAt p.tokens (.object claims) 0 =
      some ⟨d, .object claims', draw⟩)
    (hdigests : Conceal.checkDigests claims' [d] = .ok ()) :
    Payload.conceal f how claims [p] = .ok (⟨some how.algorithm, claims'⟩, [d]) := by
  have hrun : (Payload.concealer f how).concealAll [p] claims 0 = .ok (claims', [d]) := by
    exact Concealer.concealAll_cons_eq_ok_iff.2
      ⟨hroot, d, _, draw, [], Concealer.concealAt_eq_some_iff.1 hstep, rfl, rfl⟩
  show (Conceal.checkNames claims [p] >>= fun _ =>
    (Payload.concealer f how).concealAll [p] claims 0 >>= _) = _
  rw [hnames, hrun]
  show (Conceal.checkDigests claims' [d] >>= _) = _
  rw [hdigests]
  rfl

theorem conceal_deepClaim (f : DigestFunction) (random : RandomSource) :
    ∃ r, Payload.conceal f ⟨.sha256, 0, random⟩ (deepClaims k) [deepPlace 0] = .ok r := by
  have hplain : Digests.inValue (inArrays .null k) = [] := by
    obtain ⟨o, ho⟩ := exists_plain (D := fun _ _ => True) (sorted_inArrays (v := .null) trivial k)
      (reservedIn?_inArrays .null k)
    exact ho.inValue
  refine ⟨_, conceal_singleton (checkNames_deepPlace k 0) (isRoot_deepPlace 0)
    (by rw [tokens_deepPlace]; rfl) ?_⟩
  rw [Conceal.checkDigests_eq_ok_iff, List.flatMap_singleton]
  show (_ :: Digests.inValue (inArrays .null k)).Nodup
  rw [hplain]
  exact List.nodup_singleton _

theorem conceal_deepPlace (f : DigestFunction) (random : RandomSource) :
    ∃ payload ds, Payload.conceal f ⟨.sha256, 0, random⟩ (deepClaims (k + 1))
        [deepPlace (k + 1)] = .ok (payload, ds) ∧
      (Value.object payload.claims).depth = k + 3 := by
  have hstep (c : Concealer) : ∃ d g, d.concealed.value = .null ∧
      c.concealAt (deepPlace (k + 1)).tokens (.object (deepClaims (k + 1))) 0 =
        some ⟨d, .object [("a", inArrays (Digests.placeholder g) (k + 1))], 1⟩ := by
    refine ⟨.ofParts (c.salt 0) (.item .null),
      c.digest (Disclosure.ofParts (c.salt 0) (.item .null)).encoded, rfl, ?_⟩
    rw [tokens_deepPlace]
    show (do
      let step ← c.concealAt (List.replicate (k + 1) ⟨"0"⟩) (inArrays .null (k + 1)) 0
      return { step with value := .object [("a", step.value)] }) = _
    rw [concealAt_inArrays]
    rfl
  obtain ⟨d, g, hd, hstep⟩ := hstep (Payload.concealer f ⟨.sha256, 0, random⟩)
  refine ⟨_, _, conceal_singleton (checkNames_deepPlace (k + 1) (k + 1)) (isRoot_deepPlace (k + 1))
    hstep ?_, ?_⟩
  · have hinside : Digests.inMembers [("a", inArrays (Digests.placeholder g) (k + 1))] = [g] := by
      show Digests.inValue (inArrays (Digests.placeholder g) (k + 1)) ++ [] = [g]
      rw [inValue_inArrays, List.append_nil]
    rw [Conceal.checkDigests_eq_ok_iff, hinside, List.flatMap_singleton, hd]
    exact List.nodup_singleton g
  · rw [Value.depth, Value.depthMembers, Value.depthMembers, depth_inArrays,
      show (Digests.placeholder g).depth = 1 by rfl]
    omega

end DeepClaims

/-! ## Issued tokens -/

theorem exists_issue {payload : Payload} {ds : List Disclosure} (hsigns : i.signer.Signs)
    (h : Payload.conceal f ⟨i.algorithm, i.decoys, random⟩ claims places = .ok (payload, ds)) :
    ∃ issued, i.issue f random (.object claims) places none = .ok issued ∧
      issued.payload = payload := by
  have hclaims : i.concealClaims f random claims places none = .ok (payload, ds) := by
    rw [concealClaims, h]
    rfl
  obtain ⟨info, hinfo⟩ := hsigns.info
  obtain ⟨signature, hsign, hne⟩ := hsigns.signature
    ((Signer.header info i.tokenType).signingOctets payload.written.octets)
  obtain ⟨jwt, hjwt⟩ := Signer.exists_signPayload hinfo hsign hne
  refine ⟨⟨Parts.octets ⟨jwt, ds.map Disclosure.encoded, none⟩, payload, ds⟩, ?_, rfl⟩
  show (i.concealClaims f random claims places none >>= _) = _
  rw [hclaims]
  show ((i.signer.signPayload i.tokenType payload.written.octets).mapError _ >>= _) = _
  rw [hjwt]
  rfl

theorem decode_of_jws {jwt : Jws} {d : Jws.Decoded Octets} (hjwt : jwt.decode = .ok d)
    (bss : List Octets) :
    Parts.decode ⟨jwt, bss, none⟩ = Payload.ofOctets d.payload >>= fun payload =>
      Parts.decodeDisclosures bss >>= fun ds => .ok ⟨d.withPayload payload, ds⟩ := by
  rw [Parts.decode, hjwt]
  rfl

theorem decode_eq_error_of_payload {jwt : Jws} {d : Jws.Decoded Octets} {payload : Payload}
    (hjwt : jwt.decode = .ok d) (hd : d.payload = payload.written.octets)
    (hdeep : depthLimit < (Value.object payload.claims).depth) (bss : List Octets) :
    Parts.decode ⟨jwt, bss, none⟩ = .error .payload := by
  rw [decode_of_jws hjwt, hd, Payload.ofOctets_written_of_deep hdeep]
  rfl

theorem decode_eq_error_of_disclosure {jwt : Jws} {d : Jws.Decoded Octets} {payload : Payload}
    {ds : List Disclosure} (hjwt : jwt.decode = .ok d) (hd : d.payload = payload.written.octets)
    (hpayload : payload.Fits) (hclaims : (Value.object payload.claims).depth ≤ depthLimit)
    (hds : ∀ e ∈ ds, ∃ limit, Concealer.TakesOut limit e)
    (hdeep : ∃ e ∈ ds, 126 < e.concealed.value.depth) :
    Parts.decode ⟨jwt, ds.map Disclosure.encoded, none⟩ = .error .malformedDisclosure := by
  have hall : ∀ bs ∈ ds.map Disclosure.encoded, (∃ d, Disclosure.decode bs = .ok d) ∨
      Disclosure.decode bs = .error .malformed := by
    rw [List.forall_mem_map]
    intro e he
    obtain ⟨limit, salt, c, rfl, hsorted, -, hfree⟩ := hds e he
    by_cases hvalue : c.value.depth ≤ 126
    · exact .inl ⟨_, Disclosure.decode_ofParts salt ⟨hsorted, hvalue, hfree⟩⟩
    · exact .inr (Disclosure.decode_ofParts_of_deep salt (Nat.lt_of_not_le hvalue))
  have hone : ∃ bs ∈ ds.map Disclosure.encoded, Disclosure.decode bs = .error .malformed := by
    obtain ⟨e, he, hvalue⟩ := hdeep
    obtain ⟨limit, salt, c, rfl, -⟩ := hds e he
    exact ⟨_, List.mem_map_of_mem he, Disclosure.decode_ofParts_of_deep salt hvalue⟩
  rw [decode_of_jws hjwt, hd, Payload.ofOctets_written hpayload hclaims,
    Parts.decodeDisclosures_of_malformed hall hone]
  rfl

theorem exists_token (hs : Value.Sorted (.object claims))
    (h : i.issue f random (.object claims) places holderKey = .ok issued) :
    ∃ t jwt d, Token.ofOctets? issued.octets = some t ∧
      t.parts = ⟨jwt, issued.disclosures.map Disclosure.encoded, none⟩ ∧
      jwt.decode = .ok d ∧ d.payload = issued.payload.written.octets := by
  obtain ⟨hconceals, -, jwt, info, signature, hoctets, -, -, hjwt⟩ := issue_eq_ok hs h
  obtain ⟨-, -, hds⟩ := Payload.takesOut_of_conceals (sorted_bind hs) (Nat.le_refl _) hconceals
  have hencoded : ∀ bs ∈ issued.disclosures.map Disclosure.encoded,
      Disclosure.isEncoded bs = true := by
    rw [List.forall_mem_map]
    intro e he
    obtain ⟨salt, c, rfl, -⟩ := hds e he
    exact Disclosure.isEncoded_encode salt c
  obtain ⟨t, ht, hparts⟩ := Token.exists_ofOctets? jwt hencoded
  exact ⟨t, jwt, _, hoctets ▸ ht, hparts, hjwt, rfl⟩

/-- What is issued from claims that were read is read back, and reveals these claims, if its places
leave room. Otherwise it is not read. -/
theorem decode_issue (f : DigestFunction) (i : Issuer) (random : RandomSource) (text : String)
    (claims : Members) (places : List Pointer) (holderKey : Option Jwk) (issued : Issued)
    (hparse : Value.parse? text = some (.object claims))
    (hnumbers : (Value.object claims).NumbersReadBack)
    (hissue : i.issue f random (.object claims) places holderKey = .ok issued) :
    ∃ t, Token.ofOctets? issued.octets = some t ∧
      (Payload.LeavesRoom places →
        (∃ d, t.parts.decode = .ok d ∧ d.jwt.payload = issued.payload ∧
          d.disclosures = issued.disclosures) ∧
        ∃ r, t.reveal f = .ok r ∧ r.claims = bind holderKey claims) ∧
      (¬Payload.LeavesRoom places →
        t.parts.decode = .error .payload ∨ t.parts.decode = .error .malformedDisclosure) := by
  have hs := Value.sorted_of_parse? hparse
  have hdepth : (Value.object (bind holderKey claims)).depth ≤ depthLimit :=
    depth_bind (d := 123) (Value.depth_le_of_parse? hparse)
  obtain ⟨hconceals, -⟩ := issue_eq_ok hs hissue
  obtain ⟨hpayload, -, hds⟩ := Payload.takesOut_of_conceals (sorted_bind hs) hdepth hconceals
  obtain ⟨t, jwt, d, ht, hparts, hjwt, hd⟩ := exists_token hs hissue
  refine ⟨t, ht, fun hroom => ?_, fun hroom => ?_⟩
  · obtain ⟨hclaims, hvalues⟩ :=
      Payload.depth_le_of_leavesRoom (sorted_bind hs) hdepth hroom hconceals
    obtain ⟨jwt', info, bs, signature, hoctets, -, -, hreads⟩ := exists_reads_of_fits hs hissue
      hpayload hclaims fun e he => by
        obtain ⟨salt, c, rfl, hsorted, -, hfree⟩ := hds e he
        exact ⟨salt, c, rfl, hsorted, hvalues _ he, hfree⟩
    obtain ⟨t', ht', hparts'⟩ := Token.exists_ofOctets? jwt' hreads.isEncoded
    rw [← hoctets, ht, Option.some.injEq] at ht'
    subst ht'
    obtain ⟨hsame, hsames⟩ :=
      reread_of_conceals (sorted_bind hs) (numbersReadBack_bind hnumbers) hconceals
    have hread := Value.reread_eq_self hnumbers
    rw [Value.reread, Value.object.injEq] at hread
    rw [hsames] at hparts'
    rw [hsame, hsames, hread] at hreads
    obtain ⟨r, hr, hrevealed, -⟩ := hreads.exists_reveal
    refine ⟨⟨_, hparts' ▸ hreads.decode_parts none, rfl, rfl⟩, r, ?_, hrevealed⟩
    rw [Token.reveal, hparts', Parts.reveal, hreads.decode_parts]
    exact hr
  · rw [hparts]
    have hdeep := Payload.exists_deep_of_not_leavesRoom (sorted_bind hs) hroom hconceals
    by_cases hclaims : depthLimit < (Value.object issued.payload.claims).depth
    · exact .inl (decode_eq_error_of_payload hjwt hd hclaims _)
    · exact .inr (decode_eq_error_of_disclosure hjwt hd hpayload (Nat.le_of_not_lt hclaims)
        (fun e he => ⟨_, hds e he⟩) (hdeep.resolve_left hclaims))

/-- Claims at the limit are read back when the only one is concealed. -/
theorem decode_issue_deepClaim :
    ∃ issued t, issue HashAlgorithm.digest ⟨.oneOctet, .sha256, 0, none⟩ (fun n => [UInt8.ofNat n])
        (.object (deepClaims 126)) [deepPlace 0] none = .ok issued ∧
      Token.ofOctets? issued.octets = some t ∧
      (∃ d, t.parts.decode = .ok d ∧ d.jwt.payload = issued.payload ∧
        d.disclosures = issued.disclosures) ∧
      ∃ r, t.reveal HashAlgorithm.digest = .ok r ∧ r.claims = deepClaims 126 := by
  obtain ⟨⟨payload, ds⟩, hconceal⟩ :=
    conceal_deepClaim 126 HashAlgorithm.digest fun n => [UInt8.ofNat n]
  obtain ⟨issued, hissue, -⟩ :=
    exists_issue (i := ⟨.oneOctet, .sha256, 0, none⟩) Signer.signs_oneOctet hconceal
  obtain ⟨t, ht, hread, -⟩ := decode_issue HashAlgorithm.digest _ _ _ (deepClaims 126) _ none issued
    (parse?_deepClaims 126 (by decide)) (numbersReadBack_deepClaims 126) hissue
  have hroom : Payload.LeavesRoom [deepPlace 0] := by
    intro p hp hdeep
    rw [List.mem_singleton.1 hp, decoded_deepPlace] at hdeep
    exact absurd hdeep (by decide)
  exact ⟨issued, t, hissue, ht, hread hroom⟩

/-- The same claims are issued, but not read, when the item is concealed instead. -/
theorem decode_issue_deepPlace :
    Value.parse? (Value.object (deepClaims 126)).text = some (.object (deepClaims 126)) ∧
      (Value.object (deepClaims 126)).NumbersReadBack ∧
      ∃ issued t, issue HashAlgorithm.digest ⟨.oneOctet, .sha256, 0, none⟩
          (fun n => [UInt8.ofNat n]) (.object (deepClaims 126)) [deepPlace 126] none =
            .ok issued ∧
        Token.ofOctets? issued.octets = some t ∧ t.parts.decode = .error .payload := by
  refine ⟨parse?_deepClaims 126 (by decide), numbersReadBack_deepClaims 126, ?_⟩
  obtain ⟨payload, ds, hconceal, hdepth⟩ :=
    conceal_deepPlace 125 HashAlgorithm.digest fun n => [UInt8.ofNat n]
  obtain ⟨issued, hissue, rfl⟩ :=
    exists_issue (i := ⟨.oneOctet, .sha256, 0, none⟩) Signer.signs_oneOctet hconceal
  obtain ⟨t, jwt, d, ht, hparts, hjwt, hd⟩ := exists_token (sorted_deepClaims 126) hissue
  refine ⟨issued, t, hissue, ht, ?_⟩
  rw [hparts]
  exact decode_eq_error_of_payload hjwt hd (hdepth ▸ (by decide)) _

end Issuer

end SelectiveDisclosure
