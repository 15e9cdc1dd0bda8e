import SelectiveDisclosure.Proofs.Token.Decoding

/-!
# The format of disclosures

A disclosure is read exactly from the base64 text of the JSON array of a salt and what it conceals.
Every other text is malformed, except that a reserved name is reported as such.
-/

set_option autoImplicit false

namespace SelectiveDisclosure

open Json

namespace Concealed

def IsFree (c : Concealed) : Prop :=
  ∀ name, c.name? = some name → isReserved name = false

theorem isFree_item (v : Value) : (item v).IsFree := nofun

theorem isFree_member_iff {name : String} {v : Value} :
    (member name v).IsFree ↔ isReserved name = false :=
  ⟨fun h => h name rfl, fun h _ heq => Option.some.inj heq ▸ h⟩

end Concealed

namespace Disclosure

structure IsTextOf (bs : Octets) (v : Value) : Prop where
  nonempty : bs ≠ []
  encoded : ∃ json, bs = Base64Url.encode json ∧ Value.parseOctets? json = some v

variable {bs : Octets} {v w : Value}

theorem IsTextOf.unique (hv : IsTextOf bs v) (hw : IsTextOf bs w) : v = w := by
  obtain ⟨-, json, rfl, hv⟩ := hv
  obtain ⟨-, json', hjson, hw⟩ := hw
  have hsame := Base64Url.decode_encode json'
  rw [← hjson, Base64Url.decode_encode] at hsame
  rw [Except.ok.inj hsame, hw] at hv
  exact (Option.some.inj hv).symm

theorem decode_of_isTextOf (h : IsTextOf bs v) : decode bs = ofJson bs v := by
  obtain ⟨hne, json, rfl, hparse⟩ := h
  have hencoded : isEncoded (Base64Url.encode json) = true :=
    Token.isEncoded_iff.2 ⟨hne, Base64Url.isText_encode json⟩
  rw [decode, if_pos hencoded]
  simp only [Base64Url.decode_encode, hparse]

theorem decode_of_not_isTextOf (h : ∀ v, ¬IsTextOf bs v) : decode bs = .error .malformed := by
  rw [decode]
  split
  · next hencoded =>
    cases hjson : Base64Url.decode bs with
    | error e => rfl
    | ok json =>
      cases hparse : Value.parseOctets? json with
      | none => simp only [hparse]
      | some v =>
        exact absurd ⟨(Token.isEncoded_iff.1 hencoded).1, json,
          Base64Url.decode_eq_ok_iff.1 hjson, hparse⟩ (h v)
  · rfl

theorem ofJson_salted (bs : Octets) (salt : String) {c : Concealed} (h : c.IsFree) :
    ofJson bs (c.salted salt) = .ok ⟨bs, salt, c⟩ := by
  cases c with
  | item v => rfl
  | member name v => exact if_neg (ne_true_of_eq_false (Concealed.isFree_member_iff.1 h))

theorem ofJson_reserved (bs : Octets) (salt : String) {name : String} (v : Value)
    (h : isReserved name = true) :
    ofJson bs (.array [.string salt, .string name, v]) = .error (.reservedName name) :=
  if_pos h

theorem ofJson_of_ne_salted (bs : Octets) (h : ∀ salt c, v ≠ Concealed.salted salt c) :
    ofJson bs v = .error .malformed := by
  unfold ofJson
  split
  · next salt u => exact absurd rfl (h salt (.item u))
  · next salt name u => exact absurd rfl (h salt (.member name u))
  · rfl

/-- Octets are the text of a disclosure that may be read, of one that names what is reserved, or of
none. -/
theorem decode_cases (bs : Octets) :
    (∃ salt c, IsTextOf bs (c.salted salt) ∧ c.IsFree ∧ decode bs = .ok ⟨bs, salt, c⟩) ∨
      (∃ salt name v, IsTextOf bs (.array [.string salt, .string name, v]) ∧
        isReserved name = true ∧ decode bs = .error (.reservedName name)) ∨
      ((∀ salt c, ¬IsTextOf bs (Concealed.salted salt c)) ∧ decode bs = .error .malformed) := by
  by_cases htext : ∃ v, IsTextOf bs v
  · obtain ⟨v, hv⟩ := htext
    rw [decode_of_isTextOf hv]
    by_cases hsalted : ∃ salt c, v = Concealed.salted salt c
    · obtain ⟨salt, c, rfl⟩ := hsalted
      cases c with
      | item u =>
        have hfree := Concealed.isFree_item u
        exact .inl ⟨salt, .item u, hv, hfree, ofJson_salted bs salt hfree⟩
      | member name u =>
        by_cases hname : isReserved name = true
        · exact .inr (.inl ⟨salt, name, u, hv, hname, ofJson_reserved bs salt u hname⟩)
        · have hfree : (Concealed.member name u).IsFree :=
            Concealed.isFree_member_iff.2 (eq_false_of_ne_true hname)
          exact .inl ⟨salt, .member name u, hv, hfree, ofJson_salted bs salt hfree⟩
    · have hne : ∀ salt c, v ≠ Concealed.salted salt c := fun salt c heq => hsalted ⟨salt, c, heq⟩
      refine .inr (.inr ⟨fun salt c hc => hne salt c (hv.unique hc), ofJson_of_ne_salted bs hne⟩)
  · have hnone : ∀ v, ¬IsTextOf bs v := fun v hv => htext ⟨v, hv⟩
    exact .inr (.inr ⟨fun _ _ => hnone _, decode_of_not_isTextOf hnone⟩)

structure ReadExactly (bs : Octets) : Prop where
  ok : ∀ d, decode bs = .ok d ↔
    IsTextOf bs (d.concealed.salted d.salt) ∧ d.concealed.IsFree ∧ d.encoded = bs
  reserved : ∀ name, decode bs = .error (.reservedName name) ↔
    ∃ salt v, IsTextOf bs (.array [.string salt, .string name, v]) ∧ isReserved name = true
  malformed : decode bs = .error .malformed ↔ ∀ salt c, ¬IsTextOf bs (Concealed.salted salt c)

theorem readExactly (bs : Octets) : ReadExactly bs := by
  constructor
  · intro d
    constructor
    · intro h
      rcases decode_cases bs with ⟨salt, c, hc, hfree, hd⟩ | ⟨_, _, _, -, -, hd⟩ | ⟨-, hd⟩
      · obtain rfl := Except.ok.inj (hd.symm.trans h)
        exact ⟨hc, hfree, rfl⟩
      · cases hd.symm.trans h
      · cases hd.symm.trans h
    · rintro ⟨hd, hfree, rfl⟩
      rw [decode_of_isTextOf hd, ofJson_salted _ _ hfree]
  · intro name
    constructor
    · intro h
      rcases decode_cases bs with ⟨_, _, -, -, hd⟩ | ⟨salt, name', v, hv, hname, hd⟩ | ⟨-, hd⟩
      · cases hd.symm.trans h
      · cases hd.symm.trans h
        exact ⟨salt, v, hv, hname⟩
      · cases hd.symm.trans h
    · rintro ⟨salt, v, hv, hname⟩
      rw [decode_of_isTextOf hv, ofJson_reserved _ _ _ hname]
  · rcases decode_cases bs with ⟨salt, c, hc, -, hd⟩ | ⟨salt, name, v, hv, -, hd⟩ | ⟨hnone, hd⟩
    · exact iff_of_false (fun h => nomatch hd.symm.trans h) fun h => h salt c hc
    · exact iff_of_false (fun h => nomatch hd.symm.trans h) fun h => h salt (.member name v) hv
    · exact iff_of_true hd hnone

/-- A disclosure is read as it was made, but for numbers that do not read back. Read are exactly
the texts of arrays in the form of a disclosure with a name that is free, and they are kept. -/
theorem decode_encode_and_readExactly :
    (∀ salt c, Fits c → decode (encode salt c) = .ok ⟨encode salt c, salt, c.reread⟩ ∧
      (c.value.NumbersReadBack → decode (encode salt c) = .ok ⟨encode salt c, salt, c⟩)) ∧
    ∀ bs, ReadExactly bs := by
  refine ⟨fun salt c hc => ?_, readExactly⟩
  have hdecode : decode (encode salt c) = .ok (ofParts salt c).reread := decode_ofParts salt hc
  refine ⟨hdecode, fun hnumbers => ?_⟩
  rw [hdecode, reread_eq_self hnumbers]
  rfl

theorem decode_encode_null :
    decode (encode "s" (.member "n" (.array [.null]))) =
        .ok ⟨encode "s" (.member "n" (.array [.null])), "s", .member "n" (.array [.null])⟩ ∧
      decode [] = .error .malformed := by
  have hfits : Fits (.member "n" (.array [.null])) :=
    ⟨⟨trivial, trivial⟩, by decide, fun _ h => Option.some.inj h ▸ by decide⟩
  have hnumbers : (Value.array [.null]).NumbersReadBack := ⟨trivial, trivial⟩
  exact ⟨(decode_encode_and_readExactly.1 "s" _ hfits).2 hnumbers,
    (decode_encode_and_readExactly.2 []).malformed.2 fun _ _ h => h.nonempty rfl⟩

end Disclosure

end SelectiveDisclosure
