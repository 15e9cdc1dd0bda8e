import SelectiveDisclosure.Proofs.Jws.Signing
import SelectiveDisclosure.Token.Payload

/-!
# Disclosures and payloads read back

A disclosure made of its parts, and a payload as it is written, are decoded to what they were when
their values are sorted and not too deep, but for numbers that are not read back.
-/

set_option autoImplicit false

namespace SelectiveDisclosure

open Json

namespace Concealed

def reread : Concealed → Concealed
  | .member name v => .member name v.reread
  | .item v => .item v.reread

theorem reread_salted (salt : String) (c : Concealed) :
    (c.salted salt).reread = c.reread.salted salt := by
  cases c <;> rfl

end Concealed

namespace Disclosure

def reread (d : Disclosure) : Disclosure :=
  { d with concealed := d.concealed.reread }

theorem map_encoded_reread (ds : List Disclosure) :
    (ds.map reread).map encoded = ds.map encoded := by
  rw [List.map_map]
  rfl

theorem reread_eq_self {d : Disclosure} (h : d.concealed.value.NumbersReadBack) :
    d.reread = d := by
  have hsame : d.concealed.reread = d.concealed := by
    cases hc : d.concealed with
    | member name v =>
      rw [hc] at h
      exact congrArg (Concealed.member name) (Value.reread_eq_self h)
    | item v =>
      rw [hc] at h
      exact congrArg Concealed.item (Value.reread_eq_self h)
  rw [reread, hsame]

theorem isEncoded_encode (salt : String) (c : Concealed) : isEncoded (encode salt c) = true := by
  have hne : Base64Url.encode (c.salted salt).octets ≠ [] := fun hnil =>
    (c.salted salt).octets_ne_nil (Base64Url.encode_eq_nil_iff.1 hnil)
  exact Token.isEncoded_iff.2 ⟨hne, Base64Url.isText_encode _⟩

structure Fits (c : Concealed) : Prop where
  sorted : Value.Sorted c.value
  depth : c.value.depth ≤ 126
  free : ∀ name, c.name? = some name → isReserved name = false

theorem sorted_salted {c : Concealed} (h : Value.Sorted c.value) (salt : String) :
    Value.Sorted (c.salted salt) := by
  cases c with
  | member name v => exact ⟨trivial, trivial, h, trivial⟩
  | item v => exact ⟨trivial, h, trivial⟩

theorem depth_salted {c : Concealed} {d : Nat} (h : c.value.depth ≤ d) (salt : String) :
    (c.salted salt).depth ≤ d + 1 := by
  cases c with
  | member name v =>
    refine Value.depth_array_le_iff.2 (List.forall_mem_cons.2 ⟨Nat.zero_le d, ?_⟩)
    exact List.forall_mem_cons.2 ⟨Nat.zero_le d, List.forall_mem_singleton.2 h⟩
  | item v =>
    exact Value.depth_array_le_iff.2
      (List.forall_mem_cons.2 ⟨Nat.zero_le d, List.forall_mem_singleton.2 h⟩)

theorem decode_ofParts (salt : String) {c : Concealed} (h : Fits c) :
    decode (ofParts salt c).encoded = .ok (ofParts salt c).reread := by
  have hsorted : Value.Sorted (c.reread.salted salt) := by
    rw [← Concealed.reread_salted]
    exact Value.sorted_reread (sorted_salted h.sorted salt)
  have hparse : Value.parseOctets? (c.salted salt).octets = some (c.reread.salted salt) := by
    rw [Value.parseOctets?_octets (depth_salted h.depth salt), Concealed.reread_salted,
      Value.sorted_eq_self hsorted]
  show decode (encode salt c) = .ok ⟨encode salt c, salt, c.reread⟩
  rw [decode, if_pos (isEncoded_encode salt c)]
  generalize hbs : encode salt c = bs
  simp only [← hbs, encode, Base64Url.decode_encode, hparse]
  cases c with
  | item v => rfl
  | member name v =>
    have hfree := h.free name rfl
    simp only [Concealed.reread, Concealed.salted, ofJson, hfree, Bool.false_eq_true, if_false]

end Disclosure

namespace Payload

def reread (p : Payload) : Payload :=
  { p with claims := Value.rereadMembers p.claims }

structure Fits (p : Payload) : Prop where
  sorted : Value.Sorted (.object p.claims)
  free : algorithmName ∉ Members.names p.claims

def members (p : Payload) : Members :=
  Members.optional algorithmName HashAlgorithm.toJson p.algorithm ++ p.claims

theorem written_eq (p : Payload) : p.written = .object p.members := rfl

variable {p : Payload}

theorem nodup_names_members (h : p.Fits) : (Members.names p.members).Nodup := by
  rw [members, Members.names, List.map_append, List.nodup_append]
  refine ⟨(Members.names_optional ..).nodup (List.pairwise_singleton _ _),
    Members.nodup_names (Value.sorted_object_iff.1 h.sorted).1, ?_⟩
  rintro name halg _ hclaim rfl
  have hname := (Members.names_optional ..).subset halg
  rw [List.mem_singleton.1 hname] at hclaim
  exact h.free hclaim

theorem sorted_of_mem_members (h : p.Fits) {m : String × Value} (hm : m ∈ p.members) :
    Value.Sorted m.2 := by
  rcases List.mem_append.1 hm with hm | hm
  · obtain ⟨a, -, rfl⟩ := Members.mem_optional.1 hm
    trivial
  · exact (Value.sorted_object_iff.1 h.sorted).2 m hm

theorem depth_written {d : Nat} (h : (Value.object p.claims).depth ≤ d + 1) :
    p.written.depth ≤ d + 1 := by
  rw [Value.depth_object_le_iff] at h
  rw [written_eq, Value.depth_object_le_iff]
  intro m hm
  rcases List.mem_append.1 hm with hm | hm
  · obtain ⟨a, -, rfl⟩ := Members.mem_optional.1 hm
    exact Nat.zero_le d
  · exact h m hm

theorem Fits.reread (h : p.Fits) : p.reread.Fits := by
  refine ⟨Value.sorted_reread h.sorted, ?_⟩
  rw [Payload.reread, Value.names_rereadMembers]
  exact h.free

theorem reread_written (p : Payload) : p.written.reread = p.reread.written := by
  have halgorithm : Value.rereadMembers (Members.optional algorithmName HashAlgorithm.toJson
      p.algorithm) = Members.optional algorithmName HashAlgorithm.toJson p.algorithm := by
    cases p.algorithm <;> rfl
  rw [Value.rereadMembers_eq_map] at halgorithm
  rw [written_eq, Value.reread, Value.rereadMembers_eq_map, members, List.map_append, halgorithm,
    ← Value.rereadMembers_eq_map]
  rfl

theorem erase_ofList_members (h : p.Fits) :
    Members.erase (Members.ofList p.members) algorithmName = p.claims := by
  have hperm := (Members.perm_ofList (nodup_names_members h)).filter
    fun m => m.1 != algorithmName
  refine Members.eq_of_perm (Members.ascending_erase (Members.ascending_ofList _))
    (Value.sorted_object_iff.1 h.sorted).1 (hperm.trans ?_)
  show (Members.erase p.members algorithmName).Perm p.claims
  have halg : Members.erase (Members.optional algorithmName HashAlgorithm.toJson p.algorithm)
      algorithmName = [] := by
    cases p.algorithm <;> rfl
  rw [members, Members.erase_append, halg, Members.erase_of_notMem h.free, List.nil_append]

theorem get?_ofList_members (h : p.Fits) :
    Members.get? (Members.ofList p.members) algorithmName =
      p.algorithm.map HashAlgorithm.toJson := by
  have hnone : Members.get? p.claims algorithmName = none := Members.get?_eq_none_iff.2 h.free
  have hnodup := nodup_names_members h
  have hperm := Members.perm_ofList hnodup
  rw [← Members.get?_perm hnodup hperm.symm, members, Members.get?_append, hnone, Option.or_none,
    Members.get?_optional, if_pos rfl]

theorem ofName?_name (a : HashAlgorithm) : HashAlgorithm.ofName? a.name = some a := by
  cases a <;> rfl

theorem ofClaims_ofList_members (h : p.Fits) : ofClaims (Members.ofList p.members) = .ok p := by
  have hget := get?_ofList_members h
  have herase := erase_ofList_members h
  obtain ⟨algorithm, claims⟩ := p
  rw [ofClaims, hget]
  cases algorithm with
  | none =>
    rw [Members.erase_of_notMem (Members.get?_eq_none_iff.1 hget)] at herase
    simp only [Option.map_none, herase]
  | some a =>
    simp only [Option.map_some, HashAlgorithm.toJson, algorithmOfName, ofName?_name, bind,
      Except.bind, herase]
    rfl

theorem ofOctets_written (h : p.Fits) (hd : (Value.object p.claims).depth ≤ depthLimit) :
    ofOctets p.written.octets = .ok p.reread := by
  have hsame : Value.sortedMembers p.reread.members = p.reread.members :=
    Value.sortedMembers_eq_self fun m hm =>
      Value.sorted_eq_self (sorted_of_mem_members h.reread hm)
  have hparse : Value.parseOctets? p.written.octets =
      some (.object (Members.ofList p.reread.members)) := by
    rw [Value.parseOctets?_octets (depth_written hd), reread_written, written_eq, Value.sorted,
      hsame]
  rw [ofOctets, hparse]
  exact ofClaims_ofList_members h.reread

end Payload

end SelectiveDisclosure
