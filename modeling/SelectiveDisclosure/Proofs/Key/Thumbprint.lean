import SelectiveDisclosure.Proofs.Base64Url
import SelectiveDisclosure.Proofs.Key.Points
import SelectiveDisclosure.Proofs.Token.Framing

/-!
# Thumbprints

The name of the curve stands in the text that is hashed as it is, with whatever quotes are in it. No
quote is in the coordinates, so the text can be taken apart from its end, and two keys have one such
text only if they have the same curve and the same coordinates.
-/

set_option autoImplicit false

namespace SelectiveDisclosure

namespace Jwk
variable {k l : Jwk} {curve curve' : String} {x x' y y' : Octets}

/-! ## The text from its end -/

def quote : UInt8 := 34

theorem quote_notMem_encode (bs : Octets) : quote ∉ Base64Url.encode bs :=
  Base64Url.notMem_of_isText (by decide) (Base64Url.isText_encode bs)

theorem quoted_inj {before before' as bs rest : Octets} (ha : quote ∉ as) (hb : quote ∉ bs)
    (h : before ++ quote :: (as ++ rest) = before' ++ quote :: (bs ++ rest)) :
    before = before' ∧ as = bs := by
  have hrest : (before ++ quote :: as) ++ rest = (before' ++ quote :: bs) ++ rest := by
    simpa using h
  have hquoted := List.append_cancel_right hrest
  have hlast := reverse_takeWhile_ne_append ha before
  rw [hquoted, reverse_takeWhile_ne_append hb before'] at hlast
  subst hlast
  exact ⟨List.append_cancel_right hquoted, rfl⟩

/-- The coordinates stand behind the last quote but one and the last quote but five. -/
theorem ofText_thumbprintText (curve : String) (x y : Octets) :
    Octets.ofText (thumbprintText curve x y) =
      (Octets.ofText "\x7b\"crv\":\"" ++ Octets.ofText curve ++
          Octets.ofText "\",\"kty\":\"EC\",\"x\":" ++
        quote :: (Base64Url.encode x ++ Octets.ofText "\",\"y\":")) ++
      quote :: (Base64Url.encode y ++ Octets.ofText "\"\x7d") := by
  have hx : Octets.ofText "\",\"kty\":\"EC\",\"x\":\"" =
      Octets.ofText "\",\"kty\":\"EC\",\"x\":" ++ [quote] := by decide +kernel
  have hy : Octets.ofText "\",\"y\":\"" = Octets.ofText "\",\"y\":" ++ [quote] := by
    decide +kernel
  simp only [thumbprintText, Octets.ofText_append, Base64Url.ofText_encodeText, hx, hy,
    List.append_assoc, List.cons_append, List.nil_append]

theorem thumbprintText_injective (h : thumbprintText curve x y = thumbprintText curve' x' y') :
    curve = curve' ∧ x = x' ∧ y = y' := by
  have hoctets := congrArg Octets.ofText h
  rw [ofText_thumbprintText, ofText_thumbprintText] at hoctets
  obtain ⟨hbefore, hy⟩ :=
    quoted_inj (quote_notMem_encode y) (quote_notMem_encode y') hoctets
  obtain ⟨hbefore, hx⟩ :=
    quoted_inj (quote_notMem_encode x) (quote_notMem_encode x') hbefore
  have hcurve := List.append_cancel_left (List.append_cancel_right hbefore)
  exact ⟨Octets.ofText_injective hcurve, Base64Url.encode_injective hx,
    Base64Url.encode_injective hy⟩

/-! ## Keys with a thumbprint -/

theorem exists_of_identifyingText {s : String} (h : k.identifyingText = .ok s) :
    ∃ curve x y, k.HasParameters curve x y ∧ s = thumbprintText curve x y := by
  rw [identifyingText] at h
  split at h
  · cases h
  · next curve x y hcurve hx hy =>
    exact ⟨curve, x, y, ⟨hcurve, hx, hy⟩, (Except.ok.inj h).symm⟩
  · cases h

theorem exists_of_thumbprint {t : String} (h : k.thumbprint = .ok t) :
    ∃ s, k.identifyingText = .ok s ∧
      t = Base64Url.encodeText (Sha2.sha256 (Octets.ofText s)) := by
  obtain ⟨s, hs, ht⟩ := bind_eq_ok_iff.1 h
  exact ⟨s, hs, (Except.ok.inj ht).symm⟩

theorem identifyingText_eq_iff {s s' : String} (hk : k.identifyingText = .ok s)
    (hl : l.identifyingText = .ok s') : s = s' ↔ k.equalsPublic l = true := by
  rw [equalsPublic_iff]
  constructor
  · rintro rfl
    obtain ⟨curve, x, y, hkp, rfl⟩ := exists_of_identifyingText hk
    obtain ⟨curve', x', y', hlp, htext⟩ := exists_of_identifyingText hl
    obtain ⟨rfl, rfl, rfl⟩ := thumbprintText_injective htext
    exact ⟨curve, x, y, hkp, hlp⟩
  · rintro ⟨curve, x, y, hk', hl'⟩
    rw [hk'.identifyingText] at hk
    rw [hl'.identifyingText] at hl
    exact (Except.ok.inj hk).symm.trans (Except.ok.inj hl)

/-- Whatever the names of their curves, two keys with thumbprints have the same identifying text
exactly if their public parts are the same, and so the same thumbprint if these two texts are not
two with one hash. -/
theorem thumbprint_eq_iff_equalsPublic {t u : String} (hk : k.thumbprint = .ok t)
    (hl : l.thumbprint = .ok u) : ∃ s s', k.identifyingText = .ok s ∧ l.identifyingText = .ok s' ∧
      (s = s' ↔ k.equalsPublic l = true) ∧
      ((Sha2.sha256 (Octets.ofText s) = Sha2.sha256 (Octets.ofText s') → s = s') →
        (t = u ↔ k.equalsPublic l = true)) := by
  obtain ⟨s, hs, rfl⟩ := exists_of_thumbprint hk
  obtain ⟨s', hs', rfl⟩ := exists_of_thumbprint hl
  have htext := identifyingText_eq_iff hs hs'
  refine ⟨s, s', hs, hs', htext, fun hcollision => ?_⟩
  rw [← htext]
  constructor
  · intro h
    exact hcollision (Base64Url.encodeText_injective h)
  · rintro rfl
    rfl

/-- A key whose curve has a name with members of its own in it, those of another key. -/
def quotingKey : Jwk :=
  { ofCurve "P-256\",\"kty\":\"EC\",\"x\":\"AA\",\"y\":\"AA\"\x7d\\" with
    x := some [0]
    y := some [] }

/-- The other key has another thumbprint, and the same key with a secret number and a key id has the
same. -/
theorem thumbprint_quotingKey :
    (∃ t u, quotingKey.thumbprint = .ok t ∧
      { ofCurve "P-256" with x := some [0], y := some [0] }.thumbprint = .ok u ∧ t ≠ u) ∧
    ∃ t u, quotingKey.thumbprint = .ok t ∧
      { quotingKey with secret := some [1], keyId := some "\"" }.thumbprint = .ok u ∧ t = u := by
  have hquoting : quotingKey.HasParameters _ _ _ := ⟨rfl, rfl, rfl⟩
  have hother : { ofCurve "P-256" with x := some [0], y := some [0] }.HasParameters "P-256" _ _ :=
    ⟨rfl, rfl, rfl⟩
  have hsecret : { quotingKey with secret := some [1], keyId := some "\"" }.HasParameters _ _ _ :=
    ⟨rfl, rfl, rfl⟩
  constructor
  · refine ⟨_, _, hquoting.thumbprint, hother.thumbprint, fun heq => ?_⟩
    obtain ⟨s, s', hs, hs', -, hiff⟩ :=
      thumbprint_eq_iff_equalsPublic hquoting.thumbprint hother.thumbprint
    obtain rfl := Except.ok.inj (hquoting.identifyingText.symm.trans hs)
    obtain rfl := Except.ok.inj (hother.identifyingText.symm.trans hs')
    have hequal := (hiff fun hhash => absurd hhash (by decide +kernel)).1 heq
    exact absurd hequal (by decide)
  · refine ⟨_, _, hquoting.thumbprint, hsecret.thumbprint, ?_⟩
    obtain ⟨s, s', hs, hs', htext, hiff⟩ :=
      thumbprint_eq_iff_equalsPublic hquoting.thumbprint hsecret.thumbprint
    have hequal : quotingKey.equalsPublic
        { quotingKey with secret := some [1], keyId := some "\"" } = true := by decide
    exact (hiff fun _ => htext.2 hequal).2 hequal

end Jwk

end SelectiveDisclosure
