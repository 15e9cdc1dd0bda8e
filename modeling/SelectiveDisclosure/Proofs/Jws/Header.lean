import SelectiveDisclosure.Jws.Header
import SelectiveDisclosure.Proofs.Json.Nesting
import SelectiveDisclosure.Proofs.Key.Jwk

/-!
# Headers read back

A header is read from its text when its other parameters have other names, ascending, and values
that are not too deep: as it was, but for numbers that do not read back themselves.
-/

set_option autoImplicit false

namespace SelectiveDisclosure.Jws.Header

open Json

/-- The parameters with a meaning of their own. -/
def ownMembers (h : Header) : Members :=
  ("alg", h.algorithm.toJson) ::
    Members.optional "jwk" Jwk.written h.jwk ++
    Members.optional "kid" .string h.keyId ++
    Members.optional "typ" .string h.tokenType ++
    Members.optional "cty" .string h.contentType ++
    Members.optional "crit" .ofStrings h.critical

theorem written_eq (h : Header) : h.written = .object (h.ownMembers ++ h.parameters) := rfl

theorem names_ownMembers (h : Header) : (Members.names h.ownMembers).Sublist ownNames := by
  have hsub : (Members.names h.ownMembers).Sublist
      (["alg"] ++ ["jwk"] ++ ["kid"] ++ ["typ"] ++ ["cty"] ++ ["crit"]) := by
    simp only [ownMembers, Members.names, List.map_append, List.map_cons]
    refine List.Sublist.append (List.Sublist.append (List.Sublist.append (List.Sublist.append
      ?_ ?_) ?_) ?_) ?_
    · exact (Members.names_optional ..).cons_cons _
    · exact Members.names_optional ..
    · exact Members.names_optional ..
    · exact Members.names_optional ..
    · exact Members.names_optional ..
  exact hsub

/-- The other parameters have other names, ascend at every depth, and leave room in the header for
the deepest of them. -/
structure OthersFit (h : Header) : Prop where
  names : ∀ m ∈ h.parameters, m.1 ∉ ownNames
  sorted : Value.Sorted (.object h.parameters)
  depth : ∀ m ∈ h.parameters, m.2.depth ≤ 126

structure OthersRead (h : Header) : Prop where
  names : ∀ m ∈ h.parameters, m.1 ∉ ownNames
  sorted : Value.Sorted (.object h.parameters)
  readable : Value.Readable depthLimit (.object h.parameters)

theorem OthersRead.fit {h : Header} (ho : h.OthersRead) : h.OthersFit :=
  ⟨ho.names, ho.sorted, Value.depth_object_le_iff.1 ho.readable.depth⟩

/-! ## Members of a header -/

theorem nodup_names {h : Header} (hf : h.OthersFit) :
    (Members.names (h.ownMembers ++ h.parameters)).Nodup := by
  rw [Members.names, List.map_append, List.nodup_append]
  refine ⟨(names_ownMembers h).nodup (by decide), ?_, ?_⟩
  · exact Members.nodup_names (Value.sorted_object_iff.1 hf.sorted).1
  · rintro name hown _ hother rfl
    obtain ⟨m, hm, rfl⟩ := List.mem_map.1 hother
    exact hf.names m hm ((names_ownMembers h).subset hown)

theorem get?_own {h : Header} (hf : h.OthersFit) {name : String} (hname : name ∈ ownNames) :
    Members.get? (h.ownMembers ++ h.parameters) name = Members.get? h.ownMembers name := by
  have hnone : Members.get? h.parameters name = none := by
    rw [Members.get?_eq_none_iff]
    intro hmem
    obtain ⟨m, hm, rfl⟩ := List.mem_map.1 hmem
    exact hf.names m hm hname
  rw [Members.get?_append, hnone, Option.or_none]

theorem filter_others {h : Header} (hf : h.OthersFit) :
    (h.ownMembers ++ h.parameters).filter (fun m => !ownNames.contains m.1) = h.parameters := by
  have hown : h.ownMembers.filter (fun m => !ownNames.contains m.1) = [] := by
    rw [List.filter_eq_nil_iff]
    intro m hm
    have hmem := (names_ownMembers h).subset (List.mem_map_of_mem hm)
    simpa using hmem
  have hothers : h.parameters.filter (fun m => !ownNames.contains m.1) = h.parameters := by
    rw [List.filter_eq_self]
    intro m hm
    simpa using hf.names m hm
  rw [List.filter_append, hown, hothers, List.nil_append]

theorem ofJson?_written {h : Header} (hf : h.OthersFit) : ofJson? h.written = some h := by
  have hn := nodup_names hf
  have hstring : ∀ s, Value.string? (.string s) = some s := fun _ => rfl
  have hstrings : ∀ ss, Value.strings? (.ofStrings ss) = some ss :=
    fun ss => Value.strings?_eq_some_iff.2 rfl
  have halg : Members.get? h.ownMembers "alg" = some h.algorithm.toJson := rfl
  have hjwk : Members.get? h.ownMembers "jwk" = h.jwk.map Jwk.written := by
    simp [ownMembers, Members.get?_append, Members.get?_optional, Members.get?]
  have hkid : Members.get? h.ownMembers "kid" = h.keyId.map .string := by
    simp [ownMembers, Members.get?_append, Members.get?_optional, Members.get?]
  have htyp : Members.get? h.ownMembers "typ" = h.tokenType.map .string := by
    simp [ownMembers, Members.get?_append, Members.get?_optional, Members.get?]
  have hcty : Members.get? h.ownMembers "cty" = h.contentType.map .string := by
    simp [ownMembers, Members.get?_append, Members.get?_optional, Members.get?]
  have hcrit : Members.get? h.ownMembers "crit" = h.critical.map .ofStrings := by
    simp [ownMembers, Members.get?_append, Members.get?_optional, Members.get?]
  have hothers := Value.sorted_eq_self hf.sorted
  rw [Value.sorted, Value.object.injEq] at hothers
  simp only [written_eq, ofJson?, Value.object?, Option.bind_eq_bind, Option.bind_some,
    Members.optional?_eq hn, Members.required?_eq_bind hn, filter_others hf, hothers]
  rw [get?_own hf (by decide), get?_own hf (by decide), get?_own hf (by decide),
    get?_own hf (by decide), get?_own hf (by decide), get?_own hf (by decide), halg, hjwk, hkid,
    htyp, hcty, hcrit, Option.bind_some, Algorithm.ofJson?_toJson,
    Members.optionalValue?_map Jwk.ofJson?_written (by simp [Jwk.written]),
    Members.optionalValue?_map hstring (by simp), Members.optionalValue?_map hstring (by simp),
    Members.optionalValue?_map hstring (by simp),
    Members.optionalValue?_map hstrings (by simp [Value.ofStrings])]
  rfl

/-! ## Texts of a header -/

theorem readable_of_mem_ownMembers {h : Header} {m : String × Value} (hm : m ∈ h.ownMembers) :
    Value.Readable 126 m.2 := by
  simp only [ownMembers, List.mem_append, List.mem_cons, Members.mem_optional] at hm
  rcases hm with (((((rfl | ⟨k, -, rfl⟩) | ⟨s, -, rfl⟩) | ⟨s, -, rfl⟩) | ⟨s, -, rfl⟩) | ⟨ss, -, rfl⟩)
  · exact Value.readable_string _ _
  · exact (Jwk.readable_written k).mono (by decide)
  · exact Value.readable_string _ _
  · exact Value.readable_string _ _
  · exact Value.readable_string _ _
  · refine (Value.readable_array_iff (d := 0).2 fun v hv => ?_).mono (by decide)
    obtain ⟨s, -, rfl⟩ := List.mem_map.1 hv
    exact Value.readable_string _ s

def reread (h : Header) : Header :=
  { h with parameters := Value.rereadMembers h.parameters }

theorem OthersFit.reread {h : Header} (hf : h.OthersFit) : h.reread.OthersFit := by
  have hparameters : h.reread.parameters = h.parameters.map fun m => (m.1, m.2.reread) :=
    Value.rereadMembers_eq_map _
  constructor
  case names =>
    rw [hparameters]
    exact List.forall_mem_map.2 hf.names
  case sorted => exact Value.sorted_reread hf.sorted
  case depth =>
    rw [hparameters]
    refine List.forall_mem_map.2 fun m hm => ?_
    rw [Value.depth_reread]
    exact hf.depth m hm

theorem depth_written {h : Header} (hf : h.OthersFit) : h.written.depth ≤ depthLimit := by
  rw [written_eq, depthLimit, Value.depth_object_le_iff, List.forall_mem_append]
  exact ⟨fun m hm => (readable_of_mem_ownMembers hm).depth, hf.depth⟩

theorem reread_written (h : Header) : h.written.reread = h.reread.written := by
  have hown : Value.rereadMembers h.ownMembers = h.ownMembers :=
    Value.rereadMembers_eq_self fun m hm =>
      Value.reread_eq_self (readable_of_mem_ownMembers hm).numbers
  rw [Value.rereadMembers_eq_map] at hown
  rw [written_eq, written_eq, Value.reread, Value.rereadMembers_eq_map, List.map_append, hown,
    ← Value.rereadMembers_eq_map]
  rfl

theorem readOctets?_written {h : Header} (hf : h.OthersFit) :
    (Value.readOctets? h.written.octets).bind ofJson? = some h.reread := by
  rw [Value.readOctets?_octets (depth_written hf), reread_written, Option.bind_some,
    ofJson?_written hf.reread]

theorem reread_eq_self {h : Header} (hn : Value.NumbersReadBack (.object h.parameters)) :
    h.reread = h := by
  have hparameters := Value.reread_eq_self hn
  rw [Value.reread, Value.object.injEq] at hparameters
  rw [reread, hparameters]

theorem OthersRead.readOctets?_written {h : Header} (ho : h.OthersRead) :
    (Value.readOctets? h.written.octets).bind ofJson? = some h := by
  rw [Header.readOctets?_written ho.fit, reread_eq_self ho.readable.numbers]

end SelectiveDisclosure.Jws.Header
