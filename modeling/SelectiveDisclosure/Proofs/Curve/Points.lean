import Mathlib.Algebra.Group.Nat.Defs
import SelectiveDisclosure.Curve.Basic

/-!
# Points in octets

Octets and the numbers below a power of 256 are the same thing at a fixed length. So a point is
read from its two coordinates at full length, and from nothing else.
-/

set_option autoImplicit false

namespace SelectiveDisclosure

namespace Octets

theorem ofNat_foldl (width n : Nat) (bs : Octets) :
    ofNat (width + bs.length) (bs.foldl (fun n b => 256 * n + b.toNat) n) =
      ofNat width n ++ bs := by
  -- The octets are read from the left, so the number that they move up is a general one.
  induction bs generalizing width n with
  | nil => simp
  | cons b r ih =>
    have hb := b.toNat_lt
    have hhigh : (256 * n + b.toNat) / 256 = n := by omega
    have hlow : UInt8.ofNat (256 * n + b.toNat) = b := by
      rw [← UInt8.toNat_inj, UInt8.toNat_ofNat']
      omega
    have hwidth : width + (b :: r).length = width + 1 + r.length := by
      rw [List.length_cons]
      omega
    rw [List.foldl_cons, hwidth, ih, ofNat, hhigh, hlow, List.append_assoc, List.singleton_append]

theorem ofNat_toNat (bs : Octets) : ofNat bs.length (toNat bs) = bs := by
  simpa [toNat, ofNat] using ofNat_foldl 0 0 bs

theorem toNat_ofNat {width n : Nat} (h : n < 256 ^ width) : toNat (ofNat width n) = n := by
  induction width generalizing n with
  | zero =>
    rw [Nat.pow_zero] at h
    obtain rfl : n = 0 := by omega
    rfl
  | succ k ih =>
    rw [Nat.pow_succ] at h
    have hhigh : n / 256 < 256 ^ k := by omega
    have hfold : toNat (ofNat (k + 1) n) = 256 * toNat (ofNat k (n / 256)) + n % 256 := by
      simp [toNat, ofNat]
    rw [hfold, ih hhigh]
    omega

end Octets

namespace Curve
variable {c : Curve}

def PublicKey.coordinates (q : c.PublicKey) : Octets :=
  Octets.ofNat c.octets q.x ++ Octets.ofNat c.octets q.y

def generator256 : p256.PublicKey :=
  ⟨p256.generatorX, p256.generatorY, by decide +kernel⟩

/-- Coordinates of full length hold every number that is needed. -/
def Holds (c : Curve) : Prop :=
  c.p ≤ 256 ^ c.octets

theorem holds_p256 : p256.Holds := by
  unfold Holds
  decide

theorem holds_p384 : p384.Holds := by
  unfold Holds
  decide

theorem publicKey?_eq_some_iff {x y : Nat} {q : c.PublicKey} :
    c.publicKey? x y = some q ↔ x = q.x ∧ y = q.y := by
  rw [publicKey?]
  constructor
  · intro h
    split at h
    · cases h
      exact ⟨rfl, rfl⟩
    · cases h
  · rintro ⟨rfl, rfl⟩
    rw [dif_pos q.onCurve]

theorem decodePublicKey?_eq_some_iff (hc : c.Holds) {bs : Octets} {q : c.PublicKey} :
    c.decodePublicKey? bs = some q ↔ bs = 4 :: q.coordinates := by
  constructor
  · intro h
    unfold decodePublicKey? at h
    split at h
    · next r =>
      by_cases hlen : r.length = 2 * c.octets
      · rw [if_pos hlen, publicKey?_eq_some_iff] at h
        have htake : (r.take c.octets).length = c.octets := by
          rw [List.length_take]
          omega
        have hdrop : (r.drop c.octets).length = c.octets := by
          rw [List.length_drop]
          omega
        have hx := Octets.ofNat_toNat (r.take c.octets)
        have hy := Octets.ofNat_toNat (r.drop c.octets)
        rw [htake, h.1] at hx
        rw [hdrop, h.2] at hy
        rw [PublicKey.coordinates, hx, hy, List.take_append_drop]
      · rw [if_neg hlen] at h
        cases h
    · cases h
  · rintro rfl
    have hx := Octets.length_ofNat c.octets q.x
    have hy := Octets.length_ofNat c.octets q.y
    have hlen : q.coordinates.length = 2 * c.octets := by
      rw [PublicKey.coordinates, List.length_append, hx, hy]
      omega
    have htake : q.coordinates.take c.octets = Octets.ofNat c.octets q.x :=
      List.take_left' hx
    have hdrop : q.coordinates.drop c.octets = Octets.ofNat c.octets q.y :=
      List.drop_left' hx
    rw [decodePublicKey?, if_pos hlen, htake, hdrop, publicKey?_eq_some_iff]
    exact ⟨Octets.toNat_ofNat (Nat.lt_of_lt_of_le q.onCurve.1 hc),
      Octets.toNat_ofNat (Nat.lt_of_lt_of_le q.onCurve.2.1 hc)⟩

end Curve

end SelectiveDisclosure
