import SelectiveDisclosure.Key.Jwk
import SelectiveDisclosure.Proofs.Base64Url
import SelectiveDisclosure.Proofs.Json.Records
import SelectiveDisclosure.Proofs.Json.Text

/-!
# Keys read back

A key is read back from the object it is written as, and from the same object with its members in
ascending order.
-/

set_option autoImplicit false

namespace SelectiveDisclosure

open Json

theorem Algorithm.ofJson?_toJson (a : Algorithm) : Algorithm.ofJson? a.toJson = some a := by
  cases a <;> rfl

namespace Jwk

theorem octets?_ofOctets (bs : Octets) : octets? (ofOctets bs) = some bs := by
  rw [ofOctets, octets?, Base64Url.ofText_encodeText,
    Base64Url.stripPadding_of_isText (Base64Url.isText_encode bs), Base64Url.decode_encode]

def members (k : Jwk) : Members :=
  Members.optional "use" .string k.usage ++
    Members.optional "key_ops" .ofStrings k.operations ++
    Members.optional "alg" Algorithm.toJson k.algorithm ++
    Members.optional "kid" .string k.keyId ++
    [("kty", .string "EC"), ("crv", (k.curve.map .string).getD .null),
      ("x", (k.x.map ofOctets).getD .null), ("y", (k.y.map ofOctets).getD .null)] ++
    Members.optional "d" ofOctets k.secret

theorem written_eq (k : Jwk) : k.written = .object k.members := rfl

theorem names_members (k : Jwk) : (Members.names k.members).Sublist
    ["use", "key_ops", "alg", "kid", "kty", "crv", "x", "y", "d"] := by
  simp only [members, Members.names, List.map_append]
  show List.Sublist _
    (["use"] ++ ["key_ops"] ++ ["alg"] ++ ["kid"] ++ ["kty", "crv", "x", "y"] ++ ["d"])
  refine List.Sublist.append (List.Sublist.append (List.Sublist.append (List.Sublist.append
    (List.Sublist.append ?_ ?_) ?_) ?_) ?_) ?_
  · exact Members.names_optional ..
  · exact Members.names_optional ..
  · exact Members.names_optional ..
  · exact Members.names_optional ..
  · exact List.Sublist.refl _
  · exact Members.names_optional ..

theorem nodup_names_members (k : Jwk) : (Members.names k.members).Nodup :=
  k.names_members.nodup (by decide)

structure HasValues (k : Jwk) (ms : Members) : Prop where
  usage : Members.get? ms "use" = k.usage.map .string
  operations : Members.get? ms "key_ops" = k.operations.map .ofStrings
  algorithm : Members.get? ms "alg" = k.algorithm.map Algorithm.toJson
  keyId : Members.get? ms "kid" = k.keyId.map .string
  keyType : Members.get? ms "kty" = some (.string "EC")
  curve : Members.get? ms "crv" = some ((k.curve.map .string).getD .null)
  x : Members.get? ms "x" = some ((k.x.map ofOctets).getD .null)
  y : Members.get? ms "y" = some ((k.y.map ofOctets).getD .null)
  secret : Members.get? ms "d" = k.secret.map ofOctets

theorem hasValues_members (k : Jwk) : k.HasValues k.members := by
  constructor <;> simp [members, Members.get?_append, Members.get?_optional, Members.get?]

theorem HasValues.of_perm {k : Jwk} {ms : Members} (h : k.members.Perm ms) : k.HasValues ms := by
  have hget (name : String) : Members.get? ms name = Members.get? k.members name :=
    (Members.get?_perm k.nodup_names_members h name).symm
  have hv := k.hasValues_members
  constructor
  · rw [hget, hv.usage]
  · rw [hget, hv.operations]
  · rw [hget, hv.algorithm]
  · rw [hget, hv.keyId]
  · rw [hget, hv.keyType]
  · rw [hget, hv.curve]
  · rw [hget, hv.x]
  · rw [hget, hv.y]
  · rw [hget, hv.secret]

theorem ofJson?_of_hasValues {k : Jwk} {ms : Members} (hn : (Members.names ms).Nodup)
    (h : k.HasValues ms) : ofJson? (.object ms) = some k := by
  have hstring : ∀ s, Value.string? (.string s) = some s := fun _ => rfl
  have hstrings : ∀ ss, Value.strings? (.ofStrings ss) = some ss :=
    fun ss => Value.strings?_eq_some_iff.2 rfl
  simp only [ofJson?, Value.object?, Option.bind_eq_bind, Option.bind_some,
    Members.optional?_eq hn, Members.required?_eq_bind hn, h.usage, h.operations, h.algorithm,
    h.keyId, h.keyType, h.curve, h.x, h.y, h.secret]
  rw [Members.optionalValue?_map hstring (by simp),
    Members.optionalValue?_map hstrings (by simp [Value.ofStrings]),
    Members.optionalValue?_map Algorithm.ofJson?_toJson (by simp [Algorithm.toJson]),
    Members.optionalValue?_map hstring (by simp), Members.optionalValue?_getD hstring (by simp),
    Members.optionalValue?_getD octets?_ofOctets (by simp [ofOctets]),
    Members.optionalValue?_getD octets?_ofOctets (by simp [ofOctets]),
    Members.optionalValue?_map octets?_ofOctets (by simp [ofOctets])]
  rfl

theorem ofJson?_written (k : Jwk) : ofJson? k.written = some k :=
  ofJson?_of_hasValues k.nodup_names_members k.hasValues_members

/-! ## Sorted keys -/

theorem value_of_mem_members {k : Jwk} {m : String × Value} (h : m ∈ k.members) :
    m.2 = .null ∨ (∃ s, m.2 = .string s) ∨ ∃ ss, m.2 = .ofStrings ss := by
  have hgetD {α : Type} {write : α → Value} {a : Option α} (hw : ∀ a, ∃ s, write a = .string s)
      (hm : m.2 = (a.map write).getD .null) : m.2 = .null ∨ (∃ s, m.2 = .string s) ∨
        ∃ ss, m.2 = .ofStrings ss := by
    cases a with
    | none => exact .inl hm
    | some a =>
      obtain ⟨s, hs⟩ := hw a
      exact .inr (.inl ⟨s, hm.trans hs⟩)
  simp only [members, List.mem_append, Members.mem_optional, List.mem_cons, List.not_mem_nil,
    or_false] at h
  rcases h with ((((⟨s, -, rfl⟩ | ⟨ss, -, rfl⟩) | ⟨a, -, rfl⟩) | ⟨s, -, rfl⟩) |
    (rfl | rfl | rfl | rfl)) | ⟨bs, -, rfl⟩
  · exact .inr (.inl ⟨s, rfl⟩)
  · exact .inr (.inr ⟨ss, rfl⟩)
  · exact .inr (.inl ⟨_, rfl⟩)
  · exact .inr (.inl ⟨s, rfl⟩)
  · exact .inr (.inl ⟨_, rfl⟩)
  · exact hgetD (fun s => ⟨s, rfl⟩) rfl
  · exact hgetD (fun bs => ⟨_, rfl⟩) rfl
  · exact hgetD (fun bs => ⟨_, rfl⟩) rfl
  · exact .inr (.inl ⟨_, rfl⟩)

theorem sorted_of_mem_members {k : Jwk} {m : String × Value} (h : m ∈ k.members) :
    Value.Sorted m.2 ∧ Value.Readable 1 m.2 := by
  rcases value_of_mem_members h with hm | ⟨s, hm⟩ | ⟨ss, hm⟩
  · rw [hm]
    exact ⟨trivial, Nat.zero_le 1, trivial⟩
  · rw [hm]
    exact ⟨trivial, Value.readable_string 1 s⟩
  · rw [hm]
    refine ⟨Value.sorted_array_iff.2 ?_, Value.readable_array_iff.2 ?_⟩
    · intro v hv
      obtain ⟨s, -, rfl⟩ := List.mem_map.1 hv
      trivial
    · intro v hv
      obtain ⟨s, -, rfl⟩ := List.mem_map.1 hv
      exact Value.readable_string 0 s

theorem readable_written (k : Jwk) : Value.Readable 2 k.written :=
  Value.readable_object_iff.2 fun _ hm => (sorted_of_mem_members hm).2

theorem toJson_eq (k : Jwk) : k.toJson = .object (Members.ofList k.members) := by
  have hsame : Value.sortedMembers k.members = k.members :=
    Value.sortedMembers_eq_self fun m hm => Value.sorted_eq_self (sorted_of_mem_members hm).1
  rw [toJson, written_eq, Value.sorted, hsame]

theorem ofJson?_toJson (k : Jwk) : ofJson? k.toJson = some k := by
  have hperm := Members.perm_ofList k.nodup_names_members
  rw [toJson_eq]
  exact ofJson?_of_hasValues ((hperm.map Prod.fst).nodup_iff.2 k.nodup_names_members)
    (.of_perm hperm.symm)

end Jwk

end SelectiveDisclosure
