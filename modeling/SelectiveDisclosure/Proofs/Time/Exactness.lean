import SelectiveDisclosure.Proofs.Binary64.Values
import SelectiveDisclosure.Proofs.Json.Text
import SelectiveDisclosure.Proofs.Time.Instant

/-!
# Dates are exact

The seconds of an instant come back from the instant, and from the text of their JSON number, which
is read as a binary number. Any binary number of magnitude below `2^63` is a date of the greatest
whole number of seconds that is not above it. The bound is what the greatest signed integer is
rounded to, and the conversion to a signed integer stays in range below it.
-/

set_option autoImplicit false

namespace SelectiveDisclosure.NumericDate

theorem ofInstant_of_toInstant? {d : NumericDate} {t : Instant} (h : d.toInstant? = some t) :
    ofInstant t = d := by
  rw [toInstant?, Instant.ofSeconds?] at h
  have hseconds := (Instant.parts_of_ofParts? h).1
  cases d
  simp only [ofInstant, hseconds]

theorem read?_text_toJson (d : NumericDate) : Json.Value.read? d.toJson.text = some d.toJson := by
  have hread : d.toJson.reread = d.toJson :=
    Json.Value.reread_eq_self (Json.Number.readsBack_integer _ _)
  rw [Json.Value.read?_text (Nat.zero_le _), hread]

theorem ofBinary?_eq_some_iff {x : Binary64} {d : NumericDate} :
    ofBinary? x = some d ↔ |x.toRat| < 2 ^ 63 ∧ d.seconds = ⌊x.toRat⌋ := by
  have hguard : x.numerator < 0x8000000000000000 * x.denominator ↔ |x.toRat| < 2 ^ 63 := by
    rw [Binary64.numerator_lt_iff]
    norm_num
  rw [ofBinary?, Option.ite_none_right_eq_some, hguard, ofSeconds?, Option.dite_none_right_eq_some,
    ← x.floor_eq_floor_toRat]
  refine and_congr_right fun _ => ⟨?_, fun h => ⟨h ▸ d.fits, ?_⟩⟩
  · rintro ⟨_, hd⟩
    rw [← Option.some.inj hd]
  · cases d
    cases h
    rfl

/-- Dates are read back exactly, and binary numbers are read as dates exactly. The rounded number
`y` is converted within the range of the integers. -/
theorem readsBack_and_ofBinary?_isFloor :
    (∀ (d : NumericDate) (t : Instant), d.toInstant? = some t →
      ofInstant t = d ∧ ofJson? d.toJson = some d ∧
        (Json.Value.read? d.toJson.text).bind ofJson? = some d) ∧
    (∀ bits : UInt64, Binary64.exponentField bits ≠ 2047 →
      ∃ x, Binary64.ofBits bits = some x ∧ x.toRat = Binary64.described bits) ∧
    (∃ m, Binary64.ofInt? 0x7fffffffffffffff = some m ∧ m.toRat = 2 ^ 63) ∧
    ∀ x : Binary64, ((∃ d, ofBinary? x = some d) ↔ |x.toRat| < 2 ^ 63) ∧
      ∀ d, ofBinary? x = some d →
        (∀ n : ℤ, (n ≤ x.toRat ∧ x.toRat < n + 1) ↔ n = d.seconds) ∧
          (∃ y : Binary64, y.toRat = ⌊x.toRat⌋) ∧
            ∀ y : Binary64, y.toRat = ⌊x.toRat⌋ →
              y.toInt64 = d.seconds ∧ (y.toInt64 : ℚ) = y.toRat := by
  refine ⟨fun d t h => ?_, fun bits => Binary64.exists_ofBits, ?_, fun x => ⟨⟨?_, ?_⟩, ?_⟩⟩
  · have hread := ofJson?_toJson (Option.isSome_of_eq_some h)
    refine ⟨ofInstant_of_toInstant? h, hread, ?_⟩
    rw [read?_text_toJson]
    exact hread
  · obtain ⟨m, hm, hvalue⟩ := Binary64.exists_ofInt?_greatest
    exact ⟨m, hm, hvalue.trans (by norm_num)⟩
  · rintro ⟨d, hd⟩
    exact (ofBinary?_eq_some_iff.1 hd).1
  · intro h
    have hlt : |x.toRat| < (0x8000000000000000 : ℤ) := lt_of_lt_of_eq h (by norm_num)
    exact ⟨⟨⌊x.toRat⌋, Binary64.floor_bounds hlt⟩, ofBinary?_eq_some_iff.2 ⟨h, rfl⟩⟩
  · intro d hd
    have hseconds := (ofBinary?_eq_some_iff.1 hd).2
    refine ⟨fun n => ?_, x.exists_toRat_eq_floor, fun y hy => ?_⟩
    · rw [hseconds, ← Int.floor_eq_iff]
      exact eq_comm
    · have hint : y.toInt64 = d.seconds := by
        rw [Binary64.toInt64_of_toRat_eq hy (hseconds ▸ d.fits), hseconds]
      exact ⟨hint, by rw [hint, hy, hseconds]⟩

theorem readsBack_and_isFloor_fraction :
    (∃ t, toInstant? ⟨1683000000, by decide⟩ = some t ∧
      ofInstant t = ⟨1683000000, by decide⟩ ∧
        (Json.Value.read? (toJson ⟨1683000000, by decide⟩).text).bind ofJson? =
          some ⟨1683000000, by decide⟩) ∧
    ∃ x, Binary64.ofBits 0xbff4000000000000 = some x ∧
      x.toRat = Binary64.described 0xbff4000000000000 ∧ |x.toRat| < 2 ^ 63 ∧
        ofBinary? x = some ⟨-2, by decide⟩ ∧ -2 ≤ x.toRat ∧ x.toRat < -2 + 1 := by
  obtain ⟨hdates, hbits, -, hnumbers⟩ := readsBack_and_ofBinary?_isFloor
  constructor
  · obtain ⟨t, ht⟩ : ∃ t, toInstant? ⟨1683000000, by decide⟩ = some t :=
      ⟨⟨1683000000, 0, by decide, by decide⟩, by decide⟩
    obtain ⟨hinstant, -, htext⟩ := hdates _ t ht
    exact ⟨t, ht, hinstant, htext⟩
  · obtain ⟨x, hx, hvalue⟩ := hbits 0xbff4000000000000 (by decide)
    have hdate : ofBinary? x = some ⟨-2, by decide⟩ := by
      cases hx
      decide
    obtain ⟨hrange, hfloor⟩ := hnumbers x
    have hbounds := ((hfloor _ hdate).1 (-2)).2 rfl
    push_cast at hbounds
    exact ⟨x, hx, hvalue, hrange.1 ⟨_, hdate⟩, hdate, hbounds⟩

end SelectiveDisclosure.NumericDate
