import SelectiveDisclosure.Jws.Signature
import SelectiveDisclosure.Proofs.Curve.Points
import SelectiveDisclosure.Proofs.Outcome

/-!
# Points of keys

A key is read as a point from its two coordinates put one behind the other. Where the first of them
ends counts for its identity, but not for the point: so one point has several keys that verify the
same signatures, and only those with first coordinates of one length are the same key.
-/

set_option autoImplicit false

namespace SelectiveDisclosure

namespace Jwk
variable {k l : Jwk} {c : Curve} {q : c.PublicKey}

/-! ## Points -/

structure HasParameters (k : Jwk) (curve : String) (x y : Octets) : Prop where
  curve : k.curve = some curve
  x : k.x = some x
  y : k.y = some y

/-- The key is one of the curve, and its coordinates, one behind the other, are those of a point on
it at full length. -/
def HasPoint (k : Jwk) {c : Curve} (q : c.PublicKey) : Prop :=
  ∃ x y, k.HasParameters c.name x y ∧ x ++ y = q.coordinates

theorem checkCurve_eq_ok_iff {u : Unit} : k.checkCurve c = .ok u ↔ k.curve = some c.name := by
  rw [checkCurve]
  cases k.curve with
  | none => simp
  | some curve => by_cases h : curve = c.name <;> simp [h]

theorem pointOctets_eq_ok_iff {bs : Octets} :
    k.pointOctets = .ok bs ↔ ∃ x y, k.x = some x ∧ k.y = some y ∧ bs = 4 :: (x ++ y) := by
  rw [pointOctets]
  cases k.x <;> cases k.y <;> simp [eq_comm]

theorem publicKey_eq_ok_iff (hc : c.Holds) : k.publicKey c = .ok q ↔ k.HasPoint q := by
  simp only [publicKey, bind_eq_ok_iff, checkCurve_eq_ok_iff, pointOctets_eq_ok_iff]
  constructor
  · rintro ⟨-, hcurve, bs, ⟨x, y, hx, hy, rfl⟩, h⟩
    split at h
    · next q' hq =>
      cases h
      have hoctets := (Curve.decodePublicKey?_eq_some_iff hc).1 hq
      exact ⟨x, y, ⟨hcurve, hx, hy⟩, (List.cons.inj hoctets).2⟩
    · cases h
  · rintro ⟨x, y, hk, hoctets⟩
    have hq := (Curve.decodePublicKey?_eq_some_iff (q := q) hc).2 (congrArg (4 :: ·) hoctets)
    refine ⟨(), hk.curve, _, ⟨x, y, hk.x, hk.y, rfl⟩, ?_⟩
    simp only [hq]
    rfl

theorem HasPoint.pointOctets (h : k.HasPoint q) : k.pointOctets = .ok (4 :: q.coordinates) := by
  obtain ⟨x, y, hk, hoctets⟩ := h
  rw [← hoctets]
  exact pointOctets_eq_ok_iff.2 ⟨x, y, hk.x, hk.y, rfl⟩

theorem HasPoint.curve (h : k.HasPoint q) : k.curve = some c.name := by
  obtain ⟨x, y, hk, -⟩ := h
  exact hk.curve

/-! ## Signatures -/

theorem publicKey_congr (hcurve : k.curve = l.curve) (hpoint : k.pointOctets = l.pointOctets)
    (c : Curve) : k.publicKey c = l.publicKey c := by
  rw [publicKey, publicKey, checkCurve, checkCurve, hcurve, hpoint]

theorem ecdsa_congr (hcurve : k.curve = l.curve) (hpoint : k.pointOctets = l.pointOctets)
    (a : Algorithm) (message signature : Octets) :
    SignatureCheck.ecdsa a message signature k = SignatureCheck.ecdsa a message signature l := by
  have halgorithm : k.checkAlgorithm a = l.checkAlgorithm a := by
    rw [checkAlgorithm, checkAlgorithm, hcurve]
  simp only [SignatureCheck.ecdsa, halgorithm, publicKey_congr hcurve hpoint]

/-! ## Identity -/

variable {curve : String} {x y : Octets}

/-- The keys count as one: their public parts are equal, and they have one thumbprint. -/
def SameIdentity (k l : Jwk) : Prop :=
  k.equalsPublic l = true ∧ ∃ t, k.thumbprint = .ok t ∧ l.thumbprint = .ok t

theorem equalsPublic_iff : k.equalsPublic l = true ↔
    ∃ curve x y, k.HasParameters curve x y ∧ l.HasParameters curve x y := by
  simp only [equalsPublic, Bool.and_eq_true, Option.isSome_iff_exists, beq_iff_eq]
  constructor
  · rintro ⟨⟨⟨⟨⟨⟨curve, hcurve⟩, x, hx⟩, y, hy⟩, hcurves⟩, hxs⟩, hys⟩
    exact ⟨curve, x, y, ⟨hcurve, hx, hy⟩,
      ⟨hcurves.symm.trans hcurve, hxs.symm.trans hx, hys.symm.trans hy⟩⟩
  · rintro ⟨curve, x, y, hk, hl⟩
    rw [hk.curve, hk.x, hk.y, hl.curve, hl.x, hl.y]
    exact ⟨⟨⟨⟨⟨⟨curve, rfl⟩, x, rfl⟩, y, rfl⟩, rfl⟩, rfl⟩, rfl⟩

theorem HasParameters.identifyingText (h : k.HasParameters curve x y) :
    k.identifyingText = .ok (thumbprintText curve x y) := by
  rw [Jwk.identifyingText, h.curve, h.x, h.y]

theorem HasParameters.thumbprint (h : k.HasParameters curve x y) :
    k.thumbprint =
      .ok (Base64Url.encodeText (Sha2.sha256 (Octets.ofText (thumbprintText curve x y)))) := by
  rw [Jwk.thumbprint, h.identifyingText]
  rfl

theorem sameIdentity_of_hasParameters (hk : k.HasParameters curve x y)
    (hl : l.HasParameters curve x y) : k.SameIdentity l :=
  ⟨equalsPublic_iff.2 ⟨curve, x, y, hk, hl⟩, _, hk.thumbprint, hl.thumbprint⟩

/-- The key of a point, with so many octets of its coordinates as the first of them. -/
def cut (q : c.PublicKey) (n : Nat) : Jwk :=
  { ofCurve c.name with x := some (q.coordinates.take n), y := some (q.coordinates.drop n) }

theorem hasPoint_cut (q : c.PublicKey) (n : Nat) : (cut q n).HasPoint q :=
  ⟨_, _, ⟨rfl, rfl, rfl⟩, List.take_append_drop n q.coordinates⟩

/-- Keys that are read as one point verify the same signatures. They count as one exactly if their
first coordinates have the same length. -/
theorem sameIdentity_iff_of_publicKey_eq (hc : c.Holds) (hk : k.publicKey c = .ok q)
    (hl : l.publicKey c = .ok q) :
    (∀ a message signature,
      SignatureCheck.ecdsa a message signature k = SignatureCheck.ecdsa a message signature l) ∧
    (k.SameIdentity l ↔ k.x.map List.length = l.x.map List.length) := by
  have hkp := (publicKey_eq_ok_iff hc).1 hk
  have hlp := (publicKey_eq_ok_iff hc).1 hl
  refine ⟨ecdsa_congr (hkp.curve.trans hlp.curve.symm)
    (hkp.pointOctets.trans hlp.pointOctets.symm), ?_⟩
  obtain ⟨x, y, hk, hxy⟩ := hkp
  obtain ⟨x', y', hl, hxy'⟩ := hlp
  rw [hk.x, hl.x, Option.map_some, Option.map_some, Option.some.injEq]
  constructor
  · rintro ⟨hequal, -⟩
    obtain ⟨_, _, _, hk', hl'⟩ := equalsPublic_iff.1 hequal
    rw [Option.some.inj (hk.x.symm.trans hk'.x), Option.some.inj (hl.x.symm.trans hl'.x)]
  · intro hlength
    -- The coordinates of both keys are the same octets, cut at the same place.
    obtain ⟨rfl, rfl⟩ := List.append_inj (hxy.trans hxy'.symm) hlength
    exact sameIdentity_of_hasParameters hk hl

theorem sameIdentity_withKeyId :
    (cut Curve.generator256 32).publicKey .p256 = .ok Curve.generator256 ∧
      ((cut Curve.generator256 32).withKeyId "k").publicKey .p256 = .ok Curve.generator256 ∧
      (cut Curve.generator256 32).SameIdentity ((cut Curve.generator256 32).withKeyId "k") := by
  have hk := (publicKey_eq_ok_iff Curve.holds_p256).2 (hasPoint_cut Curve.generator256 32)
  have hl : ((cut Curve.generator256 32).withKeyId "k").publicKey .p256 =
      .ok Curve.generator256 := hk
  exact ⟨hk, hl, (sameIdentity_iff_of_publicKey_eq Curve.holds_p256 hk hl).2.2 rfl⟩

/-- With one octet more in the second coordinate and one less in the first, a key is read as the
same point and counts as another. -/
theorem identity_ne_of_cut :
    (cut Curve.generator256 31).publicKey .p256 = .ok Curve.generator256 ∧
      (cut Curve.generator256 32).publicKey .p256 = .ok Curve.generator256 ∧
      (cut Curve.generator256 31).equalsPublic (cut Curve.generator256 32) = false ∧
      (cut Curve.generator256 31).thumbprint ≠ (cut Curve.generator256 32).thumbprint := by
  have hthumbprints : (cut Curve.generator256 31).thumbprint.toOption ≠
      (cut Curve.generator256 32).thumbprint.toOption := by
    decide +kernel
  exact ⟨(publicKey_eq_ok_iff Curve.holds_p256).2 (hasPoint_cut Curve.generator256 31),
    (publicKey_eq_ok_iff Curve.holds_p256).2 (hasPoint_cut Curve.generator256 32),
    by decide +kernel, fun heq => hthumbprints (congrArg Except.toOption heq)⟩

end Jwk

end SelectiveDisclosure
