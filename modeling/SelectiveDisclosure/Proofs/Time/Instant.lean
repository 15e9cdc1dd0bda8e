import SelectiveDisclosure.Time.Instant

/-!
# Instants moved by a duration

An instant outside the leap seconds moves along the line of all of these. One that is in a leap
second may stay there, and loses a second when it moves beyond it. So instants keep their order
when both are outside the leap seconds, but not always when one of them is not.
-/

set_option autoImplicit false

namespace SelectiveDisclosure.Instant

theorem le_iff {a b : Instant} : a ≤ b ↔
    a.seconds < b.seconds ∨ a.seconds = b.seconds ∧ a.nanoseconds ≤ b.nanoseconds :=
  Iff.rfl

theorem lt_iff {a b : Instant} : a < b ↔
    a.seconds < b.seconds ∨ a.seconds = b.seconds ∧ a.nanoseconds < b.nanoseconds :=
  Iff.rfl

theorem not_lt {a b : Instant} : ¬a < b ↔ b ≤ a := by
  rw [le_iff, lt_iff]
  omega

theorem not_le {a b : Instant} : ¬a ≤ b ↔ b < a := by
  rw [le_iff, lt_iff]
  omega

theorem le_trans {a b c : Instant} (hab : a ≤ b) (hbc : b ≤ c) : a ≤ c := by
  rw [le_iff] at *
  omega

theorem lt_of_le_of_lt {a b c : Instant} (hab : a ≤ b) (hbc : b < c) : a < c := by
  rw [le_iff, lt_iff] at *
  omega

theorem nanoseconds_lt (t : Instant) : t.nanoseconds < 2000000000 := by
  have h := t.inSecond
  rw [nanosecondsIn] at h
  split at h <;> omega

/-- Nanoseconds since the start of 1970, those of a leap second counted beyond its minute. -/
def total (t : Instant) : Int :=
  t.seconds * 1000000000 + t.nanoseconds

inductive Shifted (t : Instant) (d : Int) (u : Instant) : Prop where
  | plain (short : t.IsLeap → t.nanoseconds + d < 1000000000) (outside : ¬u.IsLeap)
    (moved : u.total = t.total + d)
  | within (leap : t.IsLeap) (stays : u.IsLeap) (second : u.seconds = t.seconds)
    (moved : (u.nanoseconds : Int) = t.nanoseconds + d)
  | beyond (leap : t.IsLeap) (far : 2000000000 ≤ t.nanoseconds + d) (outside : ¬u.IsLeap)
    (moved : u.total = t.total + d - 1000000000)

theorem parts_of_ofParts? {s : Int} {n : Nat} {u : Instant} (h : ofParts? s n = some u) :
    u.seconds = s ∧ u.nanoseconds = n := by
  rw [ofParts?, Option.dite_none_right_eq_some] at h
  obtain ⟨hparts, h⟩ := h
  cases h
  exact ⟨rfl, rfl⟩

theorem total_of_ofNanoseconds? {n : Int} {u : Instant} (h : ofNanoseconds? n = some u) :
    ¬u.IsLeap ∧ u.total = n := by
  obtain ⟨hs, hn⟩ := parts_of_ofParts? h
  rw [IsLeap, total]
  omega

theorem shifted_of_add? {t u : Instant} {d : Duration} (h : t.add? d = some u) :
    Shifted t d.nanoseconds u := by
  simp only [add?] at h
  split at h
  · next hleap =>
    split at h
    · next hshort =>
      obtain ⟨hs, hn⟩ := parts_of_ofParts? h
      refine .within hleap.1 ?_ hs ?_
      · rw [IsLeap]
        omega
      · omega
    · next hfar =>
      obtain ⟨houtside, htotal⟩ := total_of_ofNanoseconds? h
      refine .beyond hleap.1 (by omega) houtside ?_
      rw [htotal, total]
      omega
  · next hplain =>
    obtain ⟨houtside, htotal⟩ := total_of_ofNanoseconds? h
    refine .plain (fun hleap => ?_) houtside ?_
    · exact Int.not_le.1 fun hle => hplain ⟨hleap, hle⟩
    · rw [htotal, total]
      omega

theorem shifted_of_sub? {t u : Instant} {d : Duration} (h : t.sub? d = some u) :
    Shifted t (-d.nanoseconds) u :=
  shifted_of_add? h

namespace Shifted
variable {a a' b b' : Instant} {d d' : Int}

theorem not_isLeap (h : Shifted a d a') (ha : ¬a.IsLeap) : ¬a'.IsLeap := by
  cases h with
  | plain _ outside _ => exact outside
  | within leap => exact absurd leap ha
  | beyond leap => exact absurd leap ha

theorem leap_of_leap (h : Shifted a d a') (ha : a'.IsLeap) : a.IsLeap :=
  Decidable.not_not.1 fun hn => h.not_isLeap hn ha

theorem seconds_eq (h : Shifted a d a') (ha : a'.IsLeap) : a'.seconds = a.seconds := by
  cases h with
  | plain _ outside _ => exact absurd ha outside
  | within _ _ second _ => exact second
  | beyond _ _ outside _ => exact absurd ha outside

theorem isLeap_of_le (ha : Shifted a d a') (hleap : a'.IsLeap) (hb : Shifted b d' b') (hab : a ≤ b)
    (hsecond : a.seconds = b.seconds) (hd : d ≤ d') (hback : d' ≤ 0) : b'.IsLeap := by
  have := b.nanoseconds_lt
  cases ha with
  | within leap _ _ moved =>
    simp only [le_iff, IsLeap] at *
    cases hb <;> simp only [IsLeap] at * <;> omega
  | _ => contradiction

/-- Instants keep their order. Of two that are not in one leap second and not both outside of leap
seconds, the one in a leap second loses no second as long as it is not moved away from the other. -/
theorem mono (ha : Shifted a d a') (hb : Shifted b d' b') (hab : a ≤ b) (hd : d ≤ d')
    (hfirst : a.IsLeap → ¬b.IsLeap → 0 ≤ d') (hsecond : ¬a.IsLeap → b.IsLeap → d ≤ 0) :
    a' ≤ b' := by
  have := a.nanoseconds_lt
  have := a'.nanoseconds_lt
  have := b.nanoseconds_lt
  have := b'.nanoseconds_lt
  simp only [le_iff, IsLeap] at *
  cases ha <;> cases hb <;> simp only [IsLeap, total] at * <;> omega

theorem mono_duration (h : Shifted a d a') (h' : Shifted a d' b') (hd : d ≤ d') : a' ≤ b' :=
  h.mono h' (.inr ⟨rfl, Nat.le_refl _⟩) hd (fun h hn => absurd h hn) fun hn h => absurd h hn

section Back
variable {t e e' x x' l n : Instant} {m m' k k' : Int}

theorem nonneg_of_whole (he : Shifted t (-m) e) (hleap : e.IsLeap) (hx : Shifted e (-k) x)
    (hl : Shifted t k l) (hwhole : n.nanoseconds = 0) (hxn : x ≤ n) (hnl : n ≤ l) : 0 ≤ k := by
  refine Int.not_lt.1 fun hk => ?_
  have hsecond := he.seconds_eq hleap
  have := t.nanoseconds_lt
  simp only [le_iff, IsLeap] at *
  cases hx <;> cases hl <;> simp only [IsLeap, total] at * <;> omega

/-- Going back twice by longer durations leads further back, as far as whole seconds can tell that
are not ahead of the instant moved forward. -/
theorem le_of_back (he : Shifted t (-m) e) (hx : Shifted e (-k) x) (he' : Shifted t (-m') e')
    (hx' : Shifted e' (-k') x') (hl : Shifted t k l) (hm : m ≤ m') (hk : k ≤ k')
    (hleap : t.IsLeap → 0 ≤ m) (hwhole : n.nanoseconds = 0) (hxn : x ≤ n) (hnl : n ≤ l) :
    x' ≤ x := by
  refine hx'.mono hx (he'.mono_duration he (by omega)) (by omega) ?_ ?_
  · intro h' h
    have hback : 0 ≤ m := hleap (he'.leap_of_leap h')
    exact absurd (he'.isLeap_of_le h' he (.inr ⟨rfl, Nat.le_refl _⟩) rfl (by omega) (by omega)) h
  · intro _ h
    have := nonneg_of_whole he h hx hl hwhole hxn hnl
    omega

end Back

end Shifted

end SelectiveDisclosure.Instant
