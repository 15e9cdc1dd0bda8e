import SelectiveDisclosure.Proofs.Token.Framing

/-!
# The grammar of compact forms

A presentation is a JWT, disclosures with a tilde behind each part, and perhaps the JWT of a key
binding behind the last tilde. The reader accepts exactly the octets of this grammar. No octets can
be divided in two such ways, and the parts that are taken from them are those of the grammar.
-/

set_option autoImplicit false

namespace SelectiveDisclosure

/-- Octets between the tildes of a presentation, not yet known to be well formed. -/
structure Pieces where
  jwt : Octets
  disclosures : List Octets
  keyBinding : Option Octets
  deriving DecidableEq

def Parts.pieces (p : Parts) : Pieces :=
  ⟨p.jwt.octets, p.disclosures, p.keyBinding.map Jws.octets⟩

namespace Pieces

/-- Three segments of symbols between points, of which only the payload may be empty. -/
def IsJwt (bs : Octets) : Prop :=
  ∃ header payload signature, Jws.Segments bs header payload signature

structure Partition (w : Pieces) (bs : Octets) : Prop where
  octets : bs = w.jwt ++ tilde :: (w.disclosures.flatMap fun d => d ++ [tilde]) ++
    w.keyBinding.getD []
  jwt : IsJwt w.jwt
  disclosures : ∀ d ∈ w.disclosures, d ≠ [] ∧ Base64Url.isText d = true
  keyBinding : ∀ k ∈ w.keyBinding, IsJwt k

variable {w w' : Pieces} {bs : Octets}

theorem isJwt_iff : IsJwt bs ↔ ∃ j : Jws, j.octets = bs := by
  constructor
  · intro h
    exact ⟨⟨bs, Jws.isCompact_iff.2 h⟩, rfl⟩
  · rintro ⟨j, rfl⟩
    exact ⟨_, _, _, j.segments⟩

theorem partition_pieces {p : Parts}
    (hds : ∀ d ∈ p.disclosures, Disclosure.isEncoded d = true) : p.pieces.Partition p.octets where
  octets := by
    obtain ⟨jwt, ds, kb⟩ := p
    cases kb <;> rfl
  jwt := isJwt_iff.2 ⟨p.jwt, rfl⟩
  disclosures d hd := Token.isEncoded_iff.1 (hds d hd)
  keyBinding k hk := by
    obtain ⟨j, -, hj⟩ := Option.map_eq_some_iff.1 hk
    exact isJwt_iff.2 ⟨j, hj⟩

theorem Partition.exists_presentation (h : w.Partition bs) :
    ∃ p, Presentation.ofOctets? bs = some p ∧ p.parts.pieces = w := by
  obtain ⟨jwt, ds, kb⟩ := w
  obtain ⟨j, rfl⟩ := isJwt_iff.1 h.jwt
  obtain ⟨kj, rfl⟩ : ∃ kj : Option Jws, kj.map Jws.octets = kb := by
    cases kb with
    | none => exact ⟨none, rfl⟩
    | some k =>
      obtain ⟨j', rfl⟩ := isJwt_iff.1 (h.keyBinding k rfl)
      exact ⟨some j', rfl⟩
  have hds : ∀ d ∈ ds, Disclosure.isEncoded d = true :=
    fun d hd => Token.isEncoded_iff.2 (h.disclosures d hd)
  have hbs : bs = Parts.octets ⟨j, ds, kj⟩ :=
    h.octets.trans (partition_pieces (p := ⟨j, ds, kj⟩) hds).octets.symm
  obtain ⟨p, hp, hparts⟩ := Presentation.exists_ofOctets? ⟨j, ds, kj⟩ hds
  exact ⟨p, by rw [hbs, hp], by rw [hparts]; rfl⟩

theorem Partition.unique (h : w.Partition bs) (h' : w'.Partition bs) : w = w' := by
  obtain ⟨p, hp, rfl⟩ := h.exists_presentation
  obtain ⟨p', hp', rfl⟩ := h'.exists_presentation
  rw [hp] at hp'
  rw [Option.some.inj hp']

theorem partition_presentation (p : Presentation) : p.parts.pieces.Partition p.octets := by
  obtain ⟨hoctets, -, hds⟩ := p.octets_parts
  rw [← hoctets]
  exact partition_pieces hds

theorem partition_token (t : Token) : t.parts.pieces.Partition t.octets := by
  obtain ⟨hoctets, hds⟩ := t.octets_parts
  rw [← hoctets]
  exact partition_pieces hds

theorem Partition.isCompact_token (h : w.Partition bs) (hkb : w.keyBinding = none) :
    Token.isCompact bs = true := by
  obtain ⟨p, hp, rfl⟩ := h.exists_presentation
  have hparts : p.parts = ⟨p.parts.jwt, p.parts.disclosures, none⟩ := by
    rw [← Option.map_eq_none_iff.1 hkb]
  obtain ⟨-, -, hds⟩ := p.octets_parts
  have hbs : bs = Parts.octets ⟨p.parts.jwt, p.parts.disclosures, none⟩ := by
    rw [← hparts]
    exact h.octets.trans (partition_pieces hds).octets.symm
  exact Token.isCompact_iff.2 ⟨_, _, hbs, hds⟩

end Pieces

open Pieces

/-- Octets are a presentation exactly if they can be divided by the grammar, and then in one way
only: into the parts of the presentation, which written again are these octets. The tokens are the
presentations without a key binding. -/
theorem isCompact_iff_partition (bs : Octets) :
    (Presentation.isCompact bs = true ↔ ∃ w : Pieces, w.Partition bs) ∧
      (∀ w w' : Pieces, w.Partition bs → w'.Partition bs → w = w') ∧
      (∀ p : Presentation, p.octets = bs → p.parts.pieces.Partition bs ∧ p.parts.octets = bs) ∧
      (Token.isCompact bs = true ↔ ∃ w : Pieces, w.Partition bs ∧ w.keyBinding = none) ∧
      ∀ t : Token, t.octets = bs → t.parts.pieces.Partition bs ∧ t.parts.octets = bs := by
  refine ⟨⟨fun h => ⟨_, partition_presentation ⟨bs, h⟩⟩, ?_⟩, fun _ _ => Partition.unique, ?_,
    ⟨fun h => ⟨_, partition_token ⟨bs, h⟩, rfl⟩, ?_⟩, ?_⟩
  · rintro ⟨w, hw⟩
    obtain ⟨p, hp, -⟩ := hw.exists_presentation
    rw [Presentation.ofOctets?, Option.dite_none_right_eq_some] at hp
    exact hp.1
  · rintro p rfl
    exact ⟨partition_presentation p, p.octets_parts.1⟩
  · rintro ⟨w, hw, hkb⟩
    exact hw.isCompact_token hkb
  · rintro t rfl
    exact ⟨partition_token t, t.octets_parts.1⟩

example : Presentation.isCompact (Octets.ofText "a..b~c~~") = false := by decide +kernel

/-- A JWT with an empty payload, two disclosures and a key binding. -/
def dividedText : Octets := Octets.ofText "a..b~c~d~e.f.g"

def dividedPieces : Pieces :=
  ⟨Octets.ofText "a..b", [Octets.ofText "c", Octets.ofText "d"], some (Octets.ofText "e.f.g")⟩

theorem partition_dividedText :
    Presentation.isCompact dividedText = true ∧ dividedPieces.Partition dividedText ∧
      (∀ w : Pieces, w.Partition dividedText → w = dividedPieces) ∧
      Token.isCompact dividedText = false := by
  obtain ⟨hcompact, hunique, hparts, htoken, -⟩ := isCompact_iff_partition dividedText
  have hread : (Presentation.ofOctets? dividedText).map (fun p => p.parts.pieces) =
      some dividedPieces := by
    decide +kernel
  obtain ⟨p, hp, hpieces⟩ := Option.map_eq_some_iff.1 hread
  have hpartition : dividedPieces.Partition dividedText := by
    rw [← hpieces]
    exact (hparts p (Presentation.octets_of_ofOctets? hp)).1
  refine ⟨hcompact.2 ⟨_, hpartition⟩, hpartition, fun w hw => hunique w _ hw hpartition, ?_⟩
  rw [Bool.eq_false_iff, ne_eq, htoken]
  rintro ⟨w, hw, hnone⟩
  rw [hunique w _ hw hpartition] at hnone
  cases hnone

end SelectiveDisclosure
