import SelectiveDisclosure.Proofs.Key.Jwk

/-!
# Keys written again

A key is read from its text as it was, whichever of its parameters are missing. What is read from
any other text is written with the same values, but for the padding of its octets.
-/

set_option autoImplicit false

namespace SelectiveDisclosure

open Json

namespace Jwk
variable {k : Jwk} {v : Value}

/-! ## Texts of a key -/

theorem read?_text (k : Jwk) : Value.read? k.text = some (.object k.members) := by
  rw [text, Value.read?_text ((readable_written k).depth.trans (by decide)),
    Value.reread_eq_self (readable_written k).numbers, written_eq]

theorem ofText?_text (k : Jwk) : ofText? k.text = some k := by
  rw [ofText?, read?_text, Option.bind_some, ← written_eq, ofJson?_written]

/-! ## What is read -/

structure ReadFrom (ms : Members) (k : Jwk) : Prop where
  usage : ms.optional? "use" Value.string? = some k.usage
  operations : ms.optional? "key_ops" Value.strings? = some k.operations
  algorithm : ms.optional? "alg" Algorithm.ofJson? = some k.algorithm
  keyId : ms.optional? "kid" Value.string? = some k.keyId
  curve : ms.optional? "crv" Value.string? = some k.curve
  x : ms.optional? "x" octets? = some k.x
  y : ms.optional? "y" octets? = some k.y
  secret : ms.optional? "d" octets? = some k.secret

theorem exists_readFrom_of_ofJson? (h : ofJson? v = some k) :
    ∃ ms, v = .object ms ∧ ReadFrom ms k := by
  simp only [ofJson?, Option.bind_eq_bind, Option.bind_eq_some_iff] at h
  obtain ⟨ms, hobject, usage, husage, operations, hoperations, algorithm, halgorithm, keyId, hkeyId,
    _, -, curve, hcurve, x, hx, y, hy, secret, hsecret, h⟩ := h
  obtain rfl := Option.some.inj h
  cases v with
  | object members =>
    obtain rfl := Option.some.inj hobject
    exact ⟨members, rfl, husage, hoperations, halgorithm, hkeyId, hcurve, hx, hy, hsecret⟩
  | _ => cases hobject

/-! ## What is kept -/

inductive Unpadded : Value → Value → Prop where
  | text (plain : String) (n : Nat) (h : '=' ∉ plain.toList) :
    Unpadded (.string (plain ++ String.ofList (List.replicate n '='))) (.string plain)

theorem unpadded_of_octets? {bs : Octets} (h : octets? v = some bs) : Unpadded v (ofOctets bs) := by
  cases v with
  | string s =>
    have hstripped : Base64Url.stripPadding (Octets.ofText s) = Base64Url.encode bs := by
      rw [octets?] at h
      split at h
      · next hdecode =>
        cases h
        exact Base64Url.decode_eq_ok_iff.1 hdecode
      · cases h
    obtain ⟨n, hn⟩ := Base64Url.exists_stripPadding_append (Octets.ofText s)
    have hs : s = Base64Url.encodeText bs ++ String.ofList (List.replicate n '=') := by
      apply Octets.ofText_injective
      rw [Octets.ofText_append, Base64Url.ofText_encodeText, Octets.ofText_replicate (by decide),
        hn, hstripped]
      rfl
    have hplain : '=' ∉ (Base64Url.encodeText bs).toList := by
      intro hmem
      have hpadding := Octets.mem_ofText (by decide) hmem
      rw [Base64Url.ofText_encodeText] at hpadding
      exact absurd (List.all_eq_true.1 (Base64Url.isText_encode bs) _ hpadding) (by decide)
    rw [hs]
    exact .text _ n hplain
  | _ => cases h

/-- What is written tells the same as what was read, with octets in their one spelling. -/
structure Keeps (ms ws : Members) : Prop where
  same : ∀ name ∈ ["use", "key_ops", "kid", "crv"],
    Members.Kept Eq (ms.named name) (ws.named name)
  algorithm : Members.Kept (fun v w => Algorithm.ofJson? v = Algorithm.ofJson? w)
    (ms.named "alg") (ws.named "alg")
  octets : ∀ name ∈ ["x", "y", "d"], Members.Kept Unpadded (ms.named name) (ws.named name)

theorem ReadFrom.keeps {ms : Members} (h : ReadFrom ms k) : Keeps ms k.members := by
  have hn := k.nodup_names_members
  have hv := k.hasValues_members
  have hstring : ∀ v s, Value.string? v = some s → v = .string s := by
    intro v s hs
    cases v with
    | string t => exact congrArg Value.string (Option.some.inj hs)
    | _ => cases hs
  have hstrings : ∀ v ss, Value.strings? v = some ss → v = .ofStrings ss :=
    fun _ _ => Value.strings?_eq_some_iff.1
  have halgorithm : ∀ v a, Algorithm.ofJson? v = some a →
      Algorithm.ofJson? v = Algorithm.ofJson? a.toJson := by
    intro v a ha
    rw [ha, Algorithm.ofJson?_toJson]
  have hoctets : ∀ v bs, octets? v = some bs → Unpadded v (ofOctets bs) :=
    fun _ _ => unpadded_of_octets?
  constructor
  case same =>
    simp only [List.forall_mem_cons, List.not_mem_nil, false_implies, implies_true, and_true]
    refine ⟨?_, ?_, ?_, ?_⟩
    · exact Members.kept_of_optional? hn hstring h.usage (.inl hv.usage)
    · exact Members.kept_of_optional? hn hstrings h.operations (.inl hv.operations)
    · exact Members.kept_of_optional? hn hstring h.keyId (.inl hv.keyId)
    · exact Members.kept_of_optional? hn hstring h.curve (.inr hv.curve)
  case algorithm =>
    exact Members.kept_of_optional? hn halgorithm h.algorithm (.inl hv.algorithm)
  case octets =>
    simp only [List.forall_mem_cons, List.not_mem_nil, false_implies, implies_true, and_true]
    refine ⟨?_, ?_, ?_⟩
    · exact Members.kept_of_optional? hn hoctets h.x (.inr hv.x)
    · exact Members.kept_of_optional? hn hoctets h.y (.inr hv.y)
    · exact Members.kept_of_optional? hn hoctets h.secret (.inl hv.secret)

/-- Every key is read from its text and from its sorted form as it was. The text of a key that was
read from another text is read as this key too, and tells the same as the other text. -/
theorem ofText?_text_and_keeps :
    (∀ k : Jwk, ofText? k.text = some k ∧ ofJson? k.toJson = some k) ∧
    ∀ (s : String) (k : Jwk), ofText? s = some k → ofText? k.text = some k ∧
      ∃ ms ws, Value.read? s = some (.object ms) ∧ Value.read? k.text = some (.object ws) ∧
        Keeps ms ws := by
  refine ⟨fun k => ⟨ofText?_text k, ofJson?_toJson k⟩, fun s k hk => ⟨ofText?_text k, ?_⟩⟩
  obtain ⟨v, hread, hv⟩ := Option.bind_eq_some_iff.1 hk
  obtain ⟨ms, rfl, hms⟩ := exists_readFrom_of_ofJson? hv
  exact ⟨ms, k.members, hread, read?_text k, hms.keeps⟩

/-- One coordinate is padded, the other is `null`, and a name that is ignored is repeated. -/
def paddedText : String :=
  "\x7b\"x\":\"_w==\",\"u\":\"\",\"y\":null,\"kty\":0,\"u\":[],\"d\":\"=\"\x7d"

theorem keeps_paddedText :
    ∃ k, ofText? paddedText = some k ∧ k.x = some [255] ∧ k.secret = some [] ∧
      ofText? k.text = some k ∧
      ∃ ms ws, Value.read? paddedText = some (.object ms) ∧
        Value.read? k.text = some (.object ws) ∧ Keeps ms ws := by
  have hread : ofText? paddedText =
      some ⟨none, none, none, none, none, some [255], none, some []⟩ := by
    decide +kernel
  obtain ⟨hagain, hkeeps⟩ := ofText?_text_and_keeps.2 paddedText _ hread
  exact ⟨_, hread, rfl, rfl, hagain, hkeeps⟩

end Jwk

end SelectiveDisclosure
