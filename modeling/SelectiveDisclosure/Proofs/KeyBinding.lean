import SelectiveDisclosure.KeyBinding
import SelectiveDisclosure.Proofs.Json.Raw
import SelectiveDisclosure.Proofs.Time.NumericDate

/-!
# Key bindings read back

The text of a key binding reads as the same key binding when its dates are instants.
-/

set_option autoImplicit false

namespace SelectiveDisclosure

open Json

namespace NumericDate

theorem readable_toJson (d : NumericDate) (k : Nat) : Value.Readable k d.toJson :=
  ⟨Nat.zero_le k, Number.readsBack_integer _ _⟩

theorem isPassed_toJson (d : NumericDate) : Raw.IsPassed d.toJson.octets :=
  Raw.isPassed_integer _ _

end NumericDate

namespace KeyBinding

section Fields
variable {α : Type} {ms : Members} {name : String} (read : Value → Option α)

theorem filter_octets (ms : Members) (name : String) :
    (ms.map fun m => (m.1, m.2.octets)).filter (fun m => m.1 = name) =
      (ms.filter fun m => m.1 = name).map fun m => (m.1, m.2.octets) := by
  rw [List.filter_map]
  rfl

theorem filter_optional (name : String) (write : α → Value) (value : Option α) :
    (Members.optional name write value).filter (fun m => m.1 = name) =
      Members.optional name write value := by
  apply List.filter_eq_self.2
  intro m hm
  cases value with
  | none => cases hm
  | some a =>
    rw [List.mem_singleton.1 hm]
    exact decide_eq_true rfl

theorem filter_optional_of_ne {other : String} (hne : other ≠ name) (write : α → Value)
    (value : Option α) :
    (Members.optional other write value).filter (fun m => m.1 = name) = [] := by
  apply List.filter_eq_nil_iff.2
  intro m hm
  cases value with
  | none => cases hm
  | some a =>
    rw [List.mem_singleton.1 hm]
    exact fun heq => hne (of_decide_eq_true heq)

theorem field?_octets {v : Value} (hv : Value.Readable depthLimit v)
    (h : ms.filter (fun m => m.1 = name) = [(name, v)]) :
    field? (ms.map fun m => (m.1, m.2.octets)) name read = read v := by
  rw [field?, filter_octets, h]
  simp only [List.map_cons, List.map_nil]
  rw [hv.readOctets?, Option.bind_some]

theorem optionalField?_octets {write : α → Value} {value : Option α}
    (h : ms.filter (fun m => m.1 = name) = Members.optional name write value)
    (hvalue : ∀ a, value = some a → Value.Readable depthLimit (write a) ∧
      write a ≠ .null ∧ read (write a) = some a) :
    optionalField? (ms.map fun m => (m.1, m.2.octets)) name read = some value := by
  rw [optionalField?, filter_octets, h]
  cases value with
  | none => rfl
  | some a =>
    obtain ⟨hreadable, hnull, hread⟩ := hvalue a rfl
    have hor : orNull read (write a) = some (some a) := by
      rw [orNull, hread]
      · rfl
      · exact hnull
    simp only [Members.optional, List.map_cons, List.map_nil]
    rw [field?_octets (orNull read) hreadable h, hor]

end Fields

structure HasInstants (b : KeyBinding) : Prop where
  issuedAt : b.issuedAt.toInstant?.isSome = true
  expiresAt : ∀ d, b.expiresAt = some d → d.toInstant?.isSome = true
  notBefore : ∀ d, b.notBefore = some d → d.toInstant?.isSome = true

def members (b : KeyBinding) : Members :=
  [("aud", .string b.audience), ("nonce", .string b.nonce), ("iat", b.issuedAt.toJson),
    ("sd_hash", .string b.tokenDigest)] ++
  Members.optional "exp" NumericDate.toJson b.expiresAt ++
  Members.optional "nbf" NumericDate.toJson b.notBefore

theorem written_eq (b : KeyBinding) : b.written = .object b.members := rfl

theorem isPassed_of_mem_members {b : KeyBinding} {m : String × Value} (h : m ∈ b.members) :
    Raw.IsPassed m.2.octets := by
  simp only [members, List.mem_append, List.mem_cons, List.not_mem_nil, or_false] at h
  have hdate {name : String} {d : Option NumericDate}
      (h : m ∈ Members.optional name NumericDate.toJson d) : Raw.IsPassed m.2.octets := by
    cases d with
    | none => cases h
    | some d =>
      rw [List.mem_singleton.1 h]
      exact d.isPassed_toJson
  rcases h with ((rfl | rfl | rfl | rfl) | h) | h
  · exact Raw.isPassed_string _
  · exact Raw.isPassed_string _
  · exact b.issuedAt.isPassed_toJson
  · exact Raw.isPassed_string _
  · exact hdate h
  · exact hdate h

theorem ofMembers?_members {b : KeyBinding} (h : b.HasInstants) :
    ofMembers? (b.members.map fun m => (m.1, m.2.octets)) = some b := by
  have hdate {name : String} {d : Option NumericDate}
      (hfilter : b.members.filter (fun m => m.1 = name) =
        Members.optional name NumericDate.toJson d)
      (hd : ∀ e, d = some e → e.toInstant?.isSome = true) :
      optionalField? (b.members.map fun m => (m.1, m.2.octets)) name NumericDate.ofJson? =
        some d :=
    optionalField?_octets _ hfilter fun e he => ⟨e.readable_toJson _, Value.noConfusion,
      NumericDate.ofJson?_toJson (hd e he)⟩
  have hfixed {name : String} (hexp : "exp" ≠ name) (hnbf : "nbf" ≠ name) :
      b.members.filter (fun m => m.1 = name) =
        [("aud", .string b.audience), ("nonce", .string b.nonce), ("iat", b.issuedAt.toJson),
          ("sd_hash", .string b.tokenDigest)].filter (fun m => m.1 = name) := by
    rw [members, List.filter_append, List.filter_append, filter_optional_of_ne hexp,
      filter_optional_of_ne hnbf, List.append_nil, List.append_nil]
  have haud : b.members.filter (fun m => m.1 = "aud") = [("aud", .string b.audience)] :=
    hfixed (by decide) (by decide)
  have hnonce : b.members.filter (fun m => m.1 = "nonce") = [("nonce", .string b.nonce)] :=
    hfixed (by decide) (by decide)
  have hiat : b.members.filter (fun m => m.1 = "iat") = [("iat", b.issuedAt.toJson)] :=
    hfixed (by decide) (by decide)
  have hhash : b.members.filter (fun m => m.1 = "sd_hash") =
      [("sd_hash", .string b.tokenDigest)] := hfixed (by decide) (by decide)
  have hexp : b.members.filter (fun m => m.1 = "exp") =
      Members.optional "exp" NumericDate.toJson b.expiresAt := by
    rw [members, List.filter_append, List.filter_append, filter_optional,
      filter_optional_of_ne (by decide), List.append_nil]
    rfl
  have hnbf : b.members.filter (fun m => m.1 = "nbf") =
      Members.optional "nbf" NumericDate.toJson b.notBefore := by
    rw [members, List.filter_append, List.filter_append, filter_optional_of_ne (by decide),
      filter_optional]
    rfl
  rw [ofMembers?, field?_octets _ (Value.readable_string _ _) haud,
    field?_octets _ (Value.readable_string _ _) hnonce,
    field?_octets _ (b.issuedAt.readable_toJson _) hiat,
    field?_octets _ (Value.readable_string _ _) hhash, hdate hexp h.expiresAt,
    hdate hnbf h.notBefore, NumericDate.ofJson?_toJson h.issuedAt]
  rfl

theorem ofOctets?_written {b : KeyBinding} (h : b.HasInstants) :
    ofOctets? b.written.octets = some b := by
  rw [written_eq, ofOctets?, Raw.members?_octets fun m hm => isPassed_of_mem_members hm]
  exact ofMembers?_members h

end KeyBinding

end SelectiveDisclosure
