import SelectiveDisclosure.Proofs.Jws.Decoding
import SelectiveDisclosure.Proofs.Jws.Header

/-!
# Headers written again

Every header that is decoded has other parameters with names of their own, ascending, and none of
them too deep. Such a header is decoded from its own text, so it does not change when it is written
and decoded again, as far as its numbers do not.
-/

set_option autoImplicit false

namespace SelectiveDisclosure.Jws.Header

open Json

variable {h : Header} {v : Value} {bs : Octets}

theorem decode_encode (hf : h.OthersFit) : decode h.encode = .ok h.reread :=
  decode_eq_ok_iff.2 ⟨_, rfl, readOctets?_written hf⟩

theorem decode_encode_of_numbersReadBack (hf : h.OthersFit)
    (hn : Value.NumbersReadBack (.object h.parameters)) : decode h.encode = .ok h := by
  rw [decode_encode hf, reread_eq_self hn]

theorem exists_of_ofJson? (hv : ofJson? v = some h) : ∃ ms, v = .object ms ∧
    .object h.parameters = (Value.object (ms.filter fun m => !ownNames.contains m.1)).sorted := by
  simp only [ofJson?, Option.bind_eq_bind, Option.bind_eq_some_iff] at hv
  obtain ⟨ms, hobject, _, -, _, -, _, -, _, -, _, -, _, -, hv⟩ := hv
  obtain rfl := Option.some.inj hv
  cases v with
  | object members =>
    obtain rfl := Option.some.inj hobject
    exact ⟨members, rfl, rfl⟩
  | _ => cases hobject

theorem othersFit_of_ofJson? (hv : ofJson? v = some h) (hdepth : v.depth ≤ depthLimit) :
    h.OthersFit := by
  obtain ⟨ms, rfl, hparameters⟩ := exists_of_ofJson? hv
  have hothers : (Value.object (ms.filter fun m => !ownNames.contains m.1)).depth ≤ depthLimit := by
    rw [depthLimit, Value.depth_object_le_iff] at hdepth ⊢
    intro m hm
    exact hdepth m (List.mem_of_mem_filter hm)
  constructor
  case names =>
    intro m hm
    rw [Value.sorted, Value.object.injEq, Value.sortedMembers_eq_map] at hparameters
    rw [hparameters] at hm
    obtain ⟨e, he, rfl⟩ := List.mem_map.1 (Members.mem_of_mem_ofList hm)
    simpa using (List.mem_filter.1 he).2
  case sorted =>
    rw [hparameters]
    exact Value.sorted_sorted _
  case depth =>
    have hsorted := Value.depth_sorted_le hothers
    rw [← hparameters] at hsorted
    exact Value.depth_object_le_iff.1 hsorted

theorem othersFit_of_decode (hd : decode bs = .ok h) : h.OthersFit := by
  obtain ⟨json, -, hread⟩ := decode_eq_ok_iff.1 hd
  obtain ⟨v, hv, hread⟩ := Option.bind_eq_some_iff.1 hread
  obtain ⟨s, -, hs⟩ := Option.bind_eq_some_iff.1 hv
  exact othersFit_of_ofJson? hread (Value.depth_le_of_read? hs)

/-- A header whose other parameters fit is decoded from what it is encoded as, with what its
numbers read as, so as it was where they read back. Every decoded header is such a header. -/
theorem decode_encode_and_othersFit :
    (∀ h : Header, h.OthersFit → decode h.encode = .ok h.reread ∧
      (Value.NumbersReadBack (.object h.parameters) → decode h.encode = .ok h)) ∧
    ∀ (bs : Octets) (h : Header), decode bs = .ok h → h.OthersFit ∧
      (Value.NumbersReadBack (.object h.parameters) → decode h.encode = .ok h) := by
  refine ⟨fun h hf => ⟨decode_encode hf, decode_encode_of_numbersReadBack hf⟩, ?_⟩
  intro bs h hd
  have hf := othersFit_of_decode hd
  exact ⟨hf, decode_encode_of_numbersReadBack hf⟩

/-- A header with a secret key, an empty list of critical parameters, and names of parameters in
the values of others. -/
def crowded : Header where
  algorithm := .none
  jwk := some { Jwk.ofCurve "\"" with secret := some [] }
  keyId := some "alg"
  tokenType := none
  contentType := some ""
  critical := some []
  parameters :=
    [("", .object [("alg", .array [.null, .number (.integer (-1) (by decide))])]), ("ALG", .object [])]

theorem decode_encode_crowded :
    crowded.OthersFit ∧ Value.NumbersReadBack (.object crowded.parameters) ∧
      decode crowded.encode = .ok crowded := by
  have hf : crowded.OthersFit := by
    constructor
    case names => decide
    case sorted =>
      have hlt : "" < "ALG" := by decide
      simp only [crowded, Value.Sorted, Value.SortedItems, Value.SortedMembers, Members.Ascending,
        List.pairwise_pair, List.pairwise_singleton, List.Pairwise.nil, and_self, and_true]
      exact hlt
    case depth => decide
  have hn : Value.NumbersReadBack (.object crowded.parameters) :=
    ⟨⟨⟨trivial, Number.readsBack_integer _ _, trivial⟩, trivial⟩, trivial, trivial⟩
  have hd := (decode_encode_and_othersFit.1 crowded hf).2 hn
  obtain ⟨hfit, -⟩ := decode_encode_and_othersFit.2 _ _ hd
  exact ⟨hfit, hn, hd⟩

end SelectiveDisclosure.Jws.Header
