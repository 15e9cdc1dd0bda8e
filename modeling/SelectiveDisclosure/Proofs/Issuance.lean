import Mathlib.Data.List.Flatten
import SelectiveDisclosure.Issuance
import SelectiveDisclosure.Proofs.Claims.Writing
import SelectiveDisclosure.Proofs.Jws.Signing
import SelectiveDisclosure.Proofs.Key.Jwk

/-!
# Issued tokens

The key of a holder stands beside the concealed claims as if it had always been one of them, so an
issued token conceals the claims together with the key.
-/

set_option autoImplicit false

namespace SelectiveDisclosure

open Json

/-! ## A member beside the concealed ones -/

namespace Concealer
variable {c : Concealer} {name : String} {u : Value} {ms ms' : Members}

theorem addDigest_insert (hname : name ≠ Digests.membersName) (hasc : Members.Ascending ms)
    (digest : String) (draw : Nat) :
    c.addDigest digest (Members.insert name u ms) draw =
        (Members.insert name u (c.addDigest digest ms draw).1,
          (c.addDigest digest ms draw).2) ∧
      Members.Ascending (c.addDigest digest ms draw).1 := by
  rw [addDigest, Members.get?_insert_of_ne hname, addDigest]
  have hcomm (v : Value) := Members.insert_comm (Ne.symm hname) hasc v u
  split
  · rw [hcomm]
    exact ⟨rfl, Members.ascending_insert hasc⟩
  · exact ⟨rfl, hasc⟩
  · dsimp only
    rw [hcomm]
    exact ⟨rfl, Members.ascending_insert hasc⟩

theorem concealMember_insert (hname : name ≠ Digests.membersName) (hasc : Members.Ascending ms)
    {n : String} (hne : name ≠ n) {d : Disclosure} {draw draw' : Nat}
    (h : c.concealMember n ms draw = some ⟨d, .object ms', draw'⟩) :
    c.concealMember n (Members.insert name u ms) draw =
        some ⟨d, .object (Members.insert name u ms'), draw'⟩ ∧
      Members.Ascending ms' := by
  obtain ⟨v, left, _, hget, hleft, heq⟩ := concealMember_eq_some_iff.1 h
  simp only [Step.mk.injEq, Value.object.injEq] at heq
  obtain ⟨rfl, rfl, rfl⟩ := heq
  obtain ⟨hadd, hasc'⟩ := addDigest_insert (c := c) (u := u) hname
    (Members.ascending_erase (n := n) hasc)
    (c.digest (Disclosure.ofParts (c.salt draw) (.member n v)).encoded) (draw + 1)
  rw [hleft] at hadd hasc'
  refine ⟨concealMember_eq_some_iff.2 ⟨v, _, _, ?_, ?_, rfl⟩, hasc'⟩
  · rwa [Members.get?_insert_of_ne hne]
  · rw [Members.erase_insert_of_ne hne hasc, hadd]

theorem concealsAt_insert (hname : name ≠ Digests.membersName) (hasc : Members.Ascending ms)
    {ts : List Pointer.Token} (hne : ∀ path, ts.map Pointer.Token.toDecoded ≠ name :: path)
    {d : Disclosure} {draw draw' : Nat}
    (h : c.ConcealsAt draw ts (.object ms) ⟨d, .object ms', draw'⟩) :
    c.ConcealsAt draw ts (.object (Members.insert name u ms))
        ⟨d, .object (Members.insert name u ms'), draw'⟩ ∧
      Members.Ascending ms' := by
  have hfirst {t : Pointer.Token} {rest : List Pointer.Token} (hts : ts = t :: rest) :
      name ≠ t.toDecoded := by
    rintro rfl
    exact hne (rest.map Pointer.Token.toDecoded) (by rw [hts, List.map_cons])
  cases h with
  | member h =>
    obtain ⟨hstep, hasc'⟩ := concealMember_insert (u := u) hname hasc (hfirst rfl) h
    exact ⟨.member hstep, hasc'⟩
  | inMember hget h =>
    refine ⟨?_, Members.ascending_insert hasc⟩
    rw [Members.insert_comm (hfirst rfl) hasc]
    exact .inMember (by rwa [Members.get?_insert_of_ne (hfirst rfl)]) h

theorem concealAll_insert (hname : name ≠ Digests.membersName) {ps : List Pointer}
    (hne : ∀ p ∈ ps, ∀ path, p.decoded ≠ name :: path) {draw : Nat} {ds : List Disclosure}
    (hasc : Members.Ascending ms) (h : c.concealAll ps ms draw = .ok (ms', ds)) :
    c.concealAll ps (Members.insert name u ms) draw =
        .ok (Members.insert name u ms', ds) ∧
      Members.Ascending ms' := by
  induction ps generalizing ms draw ds with
  | nil =>
    rw [concealAll] at h ⊢
    cases h
    exact ⟨rfl, hasc⟩
  | cons p r ih =>
    obtain ⟨hp, hr⟩ := List.forall_mem_cons.1 hne
    obtain ⟨hroot, d, ms₁, draw₁, ds₁, hstep, hrun, rfl⟩ := concealAll_cons_eq_ok_iff.1 h
    obtain ⟨hstep', hasc'⟩ := concealsAt_insert (u := u) hname hasc hp hstep
    obtain ⟨hrun', hasc''⟩ := ih hr hasc' hrun
    exact ⟨concealAll_cons_eq_ok_iff.2 ⟨hroot, d, _, draw₁, ds₁, hstep', hrun', rfl⟩, hasc''⟩

end Concealer

namespace Payload
variable {f : DigestFunction} {how : Concealment} {claims : Members} {places : List Pointer}
  {payload : Payload} {ds : List Disclosure}

/-- A member that no place leads to stands among the concealed claims as it stands among all. -/
theorem conceals_insert {name : String} {u : Value} (hname : isReserved name = false)
    (hs : Value.Sorted u) (hfree : Conceal.reservedIn? u = none)
    (hne : ∀ p ∈ places, ∀ path, p.decoded ≠ name :: path)
    (hasc : Members.Ascending claims) (h : Conceals f how claims places payload ds) :
    Conceals f how (Members.insert name u claims) places
      { payload with claims := Members.insert name u payload.claims } ds := by
  obtain ⟨hsd, -, -⟩ := ne_of_not_isReserved hname
  obtain ⟨hrun, hasc'⟩ := Concealer.concealAll_insert (u := u) hsd
    (fun p hp => hne p (Pointer.mem_ascending.1 (List.mem_reverse.1 hp))) hasc h.run
  refine ⟨?_, h.tokens, hrun, ?_, h.algorithm⟩
  · rw [Conceal.reservedInMembers?_eq_none_iff]
    exact Members.forall_mem_insert ⟨hname, hfree⟩
      (Conceal.reservedInMembers?_eq_none_iff.1 h.names)
  · have hnone : Digests.ofMember (name, u) = [] := by
      obtain ⟨o, ho⟩ := exists_plain (D := fun _ _ => True) hs hfree
      rw [Digests.ofMember, if_neg hsd]
      exact ho.inValue
    have hperm := Digests.inMembers_perm
      (Members.perm_insert_erase (k := name) (v := u) hasc')
    have hsub : (Digests.inMembers (Members.erase payload.claims name)).Sublist
        (Digests.inMembers payload.claims) := by
      rw [Digests.inMembers_eq_flatMap, Digests.inMembers_eq_flatMap]
      exact List.Sublist.flatMap List.filter_sublist _
    rw [Digests.inMembers_eq_flatMap ((name, u) :: _), List.flatMap_cons, hnone,
      List.nil_append, ← Digests.inMembers_eq_flatMap] at hperm
    exact (hperm.append_right _).nodup_iff.2 (h.distinct.sublist (hsub.append_right _))

end Payload

/-! ## The key of the holder -/

namespace Jwk

theorem reservedInMembers?_members (k : Jwk) : Conceal.reservedInMembers? k.members = none := by
  rw [Conceal.reservedInMembers?_eq_none_iff]
  intro m hm
  constructor
  · have hall : ∀ name ∈ ["use", "key_ops", "alg", "kid", "kty", "crv", "x", "y", "d"],
        isReserved name = false := by decide
    exact hall m.1 (k.names_members.subset (List.mem_map_of_mem hm))
  · rcases value_of_mem_members hm with hm | ⟨s, hm⟩ | ⟨ss, hm⟩
    · rw [hm]
      rfl
    · rw [hm]
      rfl
    · rw [hm, Value.ofStrings, Conceal.reservedIn?, Conceal.reservedInItems?_eq_none_iff]
      intro v hv
      obtain ⟨s, -, rfl⟩ := List.mem_map.1 hv
      rfl

theorem reservedIn?_toJson (k : Jwk) : Conceal.reservedIn? k.toJson = none := by
  rw [toJson_eq, Conceal.reservedIn?, Conceal.reservedInMembers?_eq_none_iff]
  intro m hm
  exact Conceal.reservedInMembers?_eq_none_iff.1 k.reservedInMembers?_members m
    (Members.mem_of_mem_ofList hm)

theorem sorted_toJson (k : Jwk) : Value.Sorted k.toJson :=
  Value.sorted_sorted _

theorem readable_toJson (k : Jwk) : Value.Readable 2 k.toJson := by
  rw [toJson_eq, Value.readable_object_iff]
  exact fun m hm => (sorted_of_mem_members (Members.mem_of_mem_ofList hm)).2

end Jwk

namespace Issuer
variable {f : DigestFunction} {i : Issuer} {random : RandomSource} {claims : Members}
  {places : List Pointer} {holder : Option Jwk}

theorem sorted_confirmation (k : Jwk) : Value.Sorted (confirmation k) :=
  Value.sorted_singleton_iff.2 (Jwk.sorted_toJson _)

theorem readable_confirmation (k : Jwk) : Value.Readable 3 (confirmation k) := by
  rw [confirmation, Value.readable_object_iff]
  intro m hm
  rw [List.mem_singleton.1 hm]
  exact Jwk.readable_toJson _

theorem reservedIn?_confirmation (k : Jwk) : Conceal.reservedIn? (confirmation k) = none := by
  rw [confirmation, Conceal.reservedIn?, Conceal.reservedInMembers?_eq_none_iff]
  intro m hm
  rw [List.mem_singleton.1 hm]
  exact ⟨(by decide : isReserved "jwk" = false), Jwk.reservedIn?_toJson _⟩

theorem sorted_bind (hs : Value.Sorted (.object claims)) :
    Value.Sorted (.object (bind holder claims)) := by
  cases holder with
  | none => exact hs
  | some k => exact Value.sorted_insert (sorted_confirmation k) hs

theorem depth_bind {d : Nat} (h : (Value.object claims).depth ≤ d + 4) :
    (Value.object (bind holder claims)).depth ≤ d + 4 := by
  cases holder with
  | none => exact h
  | some k =>
    rw [Value.depth_object_le_iff] at h ⊢
    exact Members.forall_mem_insert
      (Nat.le_trans (readable_confirmation k).depth (Nat.le_add_left 3 d)) h

theorem rereadMembers_bind (holder : Option Jwk) (claims : Members) :
    Value.rereadMembers (bind holder claims) = bind holder (Value.rereadMembers claims) := by
  cases holder with
  | none => rfl
  | some k =>
    have hkey := Value.reread_eq_self (readable_confirmation k).numbers
    rw [Value.rereadMembers_eq_map, Value.rereadMembers_eq_map, bind, bind,
      ← Members.insert_map Value.reread, hkey]

theorem numbersReadBack_bind (h : (Value.object claims).NumbersReadBack) :
    (Value.object (bind holder claims)).NumbersReadBack := by
  cases holder with
  | none => exact h
  | some k =>
    rw [Value.NumbersReadBack, Value.membersReadBack_iff] at h ⊢
    exact Members.forall_mem_insert (readable_confirmation k).numbers h

theorem get?_bind_some (k : Jwk) :
    Members.get? (bind (some k) claims) confirmationName = some (confirmation k) :=
  Members.get?_insert_self

theorem get?_bind_of_ne {name : String} (hne : confirmationName ≠ name) :
    Members.get? (bind holder claims) name = Members.get? claims name := by
  cases holder with
  | none => rfl
  | some k => exact Members.get?_insert_of_ne hne

theorem decoded_ne_of_not_isConfirmation {p : Pointer} (h : isConfirmation p = false)
    (path : List String) : p.decoded ≠ confirmationName :: path := by
  intro heq
  rw [isConfirmation] at h
  cases ht : p.tokens with
  | nil => simp [Pointer.decoded, ht] at heq
  | cons t rest =>
    simp only [ht, beq_eq_false_iff_ne] at h
    simp only [Pointer.decoded, ht, List.map_cons, List.cons.injEq] at heq
    exact h heq.1

theorem concealClaims_eq_ok {payload : Payload} {ds : List Disclosure}
    (hs : Value.Sorted (.object claims))
    (h : i.concealClaims f random claims places holder = .ok (payload, ds)) :
    Payload.Conceals f ⟨i.algorithm, i.decoys, random⟩ (bind holder claims) places payload ds ∧
      (holder.isSome = true → ∀ p ∈ places, isConfirmation p = false) := by
  rw [concealClaims] at h
  split at h
  · cases h
  next hplaces =>
  split at h
  · cases h
  next payload' ds' hconceal =>
  cases h
  have hconceals := Payload.conceals_of_conceal hconceal
  cases holder with
  | none => exact ⟨hconceals, fun hnone => absurd hnone Bool.false_ne_true⟩
  | some k =>
    have hfree : ∀ p ∈ places, isConfirmation p = false := by
      simpa using hplaces
    refine ⟨?_, fun _ => hfree⟩
    exact Payload.conceals_insert (by decide) (sorted_confirmation k)
      (reservedIn?_confirmation k)
      (fun p hp path => decoded_ne_of_not_isConfirmation (hfree p hp) path)
      (Value.sorted_object_iff.1 hs).1 hconceals

/-! ## Issuing -/

theorem exists_of_issue {claims : Value} {issued : Issued}
    (h : i.issue f random claims places holder = .ok issued) :
    ∃ members jwt, claims = .object members ∧
      i.concealClaims f random members places holder =
        .ok (issued.payload, issued.disclosures) ∧
      i.signer.signPayload i.tokenType issued.payload.written.octets = .ok jwt ∧
      issued.octets = Parts.octets ⟨jwt, issued.disclosures.map Disclosure.encoded, none⟩ := by
  cases claims with
  | object members =>
    rw [issue, bind_eq_ok_iff] at h
    obtain ⟨_, hmembers, h⟩ := h
    cases hmembers
    rw [bind_eq_ok_iff] at h
    obtain ⟨⟨payload, ds⟩, hconceal, h⟩ := h
    rw [bind_eq_ok_iff] at h
    obtain ⟨jwt, hsign, h⟩ := h
    rw [mapError_eq_ok_iff] at hsign
    cases h
    exact ⟨members, jwt, rfl, hconceal, hsign, rfl⟩
  | _ => cases h

/-- What an issued token is made of: the JWS of its payload, and its disclosures. -/
theorem issue_eq_ok {issued : Issued} (hs : Value.Sorted (.object claims))
    (h : i.issue f random (.object claims) places holder = .ok issued) :
    Payload.Conceals f ⟨i.algorithm, i.decoys, random⟩ (bind holder claims) places issued.payload
        issued.disclosures ∧
      (holder.isSome = true → ∀ p ∈ places, isConfirmation p = false) ∧
      ∃ jwt info signature,
        issued.octets = Parts.octets ⟨jwt, issued.disclosures.map Disclosure.encoded, none⟩ ∧
        i.signer.info = .ok info ∧
        i.signer.sign ((Signer.header info i.tokenType).signingOctets
          issued.payload.written.octets) = .ok signature ∧
        jwt.decode = .ok ⟨(Signer.header info i.tokenType).signingOctets
          issued.payload.written.octets, Signer.header info i.tokenType,
          issued.payload.written.octets, signature⟩ := by
  obtain ⟨members, jwt, hmembers, hconceal, hsign, hoctets⟩ := exists_of_issue h
  cases hmembers
  obtain ⟨info, signature, hinfo, hsigned, hdecode⟩ := Signer.signPayload_eq_ok hsign
  obtain ⟨hconceals, hfree⟩ := concealClaims_eq_ok hs hconceal
  exact ⟨hconceals, hfree, jwt, info, signature, hoctets, hinfo, hsigned, hdecode⟩

end Issuer

end SelectiveDisclosure
