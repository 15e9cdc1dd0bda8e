import SelectiveDisclosure.Jws.Signing
import SelectiveDisclosure.Proofs.Jws.Decoding
import SelectiveDisclosure.Proofs.Key.Points

/-!
# What a verified JWS is like

A JWS verifies only under the algorithm of its header, with a key of the curve of this algorithm,
and what the curve accepts is the signature of the signed octets as they were received.
-/

set_option autoImplicit false

namespace SelectiveDisclosure

/-! ## Signatures on a curve -/

theorem Curve.length_of_verify {c : Curve} {q : c.PublicKey} {message signature : Octets}
    (h : c.verify q message signature = true) : signature.length = 2 * c.octets := by
  simp only [verify] at h
  split at h
  · next hs => exact hs.1
  · cases h

namespace Algorithm

theorem holds_of_curve? {a : Algorithm} {c : Curve} (h : a.curve? = some c) :
    c.Holds ∧ a.curveName? = some c.name := by
  cases a with
  | es256 =>
    cases h
    exact ⟨Curve.holds_p256, rfl⟩
  | es384 =>
    cases h
    exact ⟨Curve.holds_p384, rfl⟩
  | es512 => cases h
  | none => cases h

theorem exists_curve?_iff {a : Algorithm} {P : Curve → Prop} :
    (∃ c, a.curve? = some c ∧ P c) ↔ a = .es256 ∧ P .p256 ∨ a = .es384 ∧ P .p384 := by
  cases a <;> simp [curve?]

end Algorithm

namespace Jwk
variable {k : Jwk} {c : Curve} {message signature : Octets}

def Accepts (k : Jwk) (c : Curve) (message signature : Octets) : Prop :=
  ∃ q : c.PublicKey, k.HasPoint q ∧ c.verify q message signature = true

theorem Accepts.curve (h : k.Accepts c message signature) : k.curve = some c.name := by
  obtain ⟨q, hq, -⟩ := h
  exact hq.curve

theorem Accepts.length (h : k.Accepts c message signature) : signature.length = 2 * c.octets := by
  obtain ⟨q, -, hverify⟩ := h
  exact Curve.length_of_verify hverify

theorem checkAlgorithm_eq_ok_iff {a : Algorithm} {u : Unit} :
    k.checkAlgorithm a = .ok u ↔ ∀ curve, a.curveName? = some curve → k.curve = some curve := by
  rw [checkAlgorithm]
  cases a.curveName? with
  | none => simp
  | some curve => by_cases h : k.curve = some curve <;> simp [h]

end Jwk

theorem SignatureCheck.ecdsa_eq_ok_true_iff {a : Algorithm} {message signature : Octets}
    {k : Jwk} :
    ecdsa a message signature k = .ok true ↔
      ∃ c, a.curve? = some c ∧ k.Accepts c message signature := by
  simp only [ecdsa, bind_eq_ok_iff, Jwk.checkAlgorithm_eq_ok_iff]
  cases hc : a.curve? with
  | none =>
    constructor
    · rintro ⟨-, -, h⟩
      cases h
    · rintro ⟨c, h, -⟩
      cases h
  | some c =>
    obtain ⟨hholds, hname⟩ := Algorithm.holds_of_curve? hc
    constructor
    · rintro ⟨-, -, h⟩
      simp only at h
      split at h
      · cases h
      · next q hq =>
        exact ⟨c, rfl, q, (Jwk.publicKey_eq_ok_iff hholds).1 hq, Except.ok.inj h⟩
    · rintro ⟨_, h, q, hq, hverify⟩
      cases h
      refine ⟨(), fun curve hcurve => ?_, ?_⟩
      · rw [hq.curve, ← hname, hcurve]
      · simp only [(Jwk.publicKey_eq_ok_iff hholds).2 hq, hverify]
        rfl

/-! ## Signatures of a JWS -/

namespace Jws.Decoded
variable {α : Type} {d : Decoded α} {k : Jwk}

theorem verify_eq_ok_true_iff {check : SignatureCheck} :
    d.verify check k = .ok true ↔ d.header.critical = none ∧
      (∀ a, k.algorithm = some a → a = d.header.algorithm) ∧
        check d.header.algorithm d.signingOctets d.signature k = .ok true := by
  rw [verify]
  cases d.header.critical with
  | some names => simp [throw, throwThe, MonadExceptOf.throw]
  | none =>
    simp only [true_and, bind_eq_ok_iff, checkKeyAlgorithm]
    cases k.algorithm with
    | none => simp
    | some a => by_cases ha : a = d.header.algorithm <;> simp [ha]

/-- No parameter of the header is critical, the key is bound to no other algorithm than that of the
header, and it has a point on the curve of this algorithm, under which the curve accepts the
signature of the signed octets. -/
structure Authentic (d : Decoded α) (k : Jwk) : Prop where
  notCritical : d.header.critical = none
  pinned : ∀ a, k.algorithm = some a → a = d.header.algorithm
  signed :
    d.header.algorithm = .es256 ∧ k.curve = some "P-256" ∧ d.signature.length = 64 ∧
        k.Accepts .p256 d.signingOctets d.signature ∨
      d.header.algorithm = .es384 ∧ k.curve = some "P-384" ∧ d.signature.length = 96 ∧
        k.Accepts .p384 d.signingOctets d.signature

theorem Authentic.accepts (h : d.Authentic k) :
    ∃ c, d.header.algorithm.curve? = some c ∧ k.Accepts c d.signingOctets d.signature := by
  rw [Algorithm.exists_curve?_iff]
  rcases h.signed with ⟨ha, -, -, hk⟩ | ⟨ha, -, -, hk⟩
  · exact .inl ⟨ha, hk⟩
  · exact .inr ⟨ha, hk⟩

theorem verify_ecdsa_eq_ok_true_iff :
    d.verify SignatureCheck.ecdsa k = .ok true ↔ d.Authentic k := by
  rw [verify_eq_ok_true_iff, SignatureCheck.ecdsa_eq_ok_true_iff]
  constructor
  · rintro ⟨hcrit, hpin, haccepts⟩
    rw [Algorithm.exists_curve?_iff] at haccepts
    rcases haccepts with ⟨ha, hk⟩ | ⟨ha, hk⟩
    · exact ⟨hcrit, hpin, .inl ⟨ha, hk.curve, hk.length, hk⟩⟩
    · exact ⟨hcrit, hpin, .inr ⟨ha, hk.curve, hk.length, hk⟩⟩
  · intro h
    exact ⟨h.notCritical, h.pinned, h.accepts⟩

/-- No signature is accepted under the algorithm, or the key is not one of its curve, or has no
point there. -/
inductive Unusable (d : Decoded α) (k : Jwk) : Prop where
  | unsigned (h : d.header.algorithm = .none)
  | unsupported (h : d.header.algorithm = .es512)
  | curve (h : k.curve ≠ d.header.algorithm.curveName?)
  | point (h : ∀ c, d.header.algorithm.curve? = some c → ∀ q : c.PublicKey, ¬k.HasPoint q)

theorem Authentic.not_unusable (h : d.Authentic k) : ¬d.Unusable k := by
  intro hunusable
  obtain ⟨c, hc, q, hq, -⟩ := h.accepts
  cases hunusable with
  | unsigned h =>
    rw [h] at hc
    cases hc
  | unsupported h =>
    rw [h] at hc
    cases hc
  | curve h => exact h (hq.curve.trans (Algorithm.holds_of_curve? hc).2.symm)
  | point h => exact h c hc q hq

/-- A JWS verifies under a key exactly if it is authentic, which it never is under a key that is not
to be used with its algorithm. The octets that are signed stand in front of the signature in the
text that it was decoded from. -/
theorem verify_iff_authentic {α : Type} (d : Decoded α) (k : Jwk) :
    (d.verify SignatureCheck.ecdsa k = .ok true ↔ d.Authentic k) ∧
      (d.Unusable k → d.verify SignatureCheck.ecdsa k ≠ .ok true) ∧
      ∀ (j : Jws) (e : Decoded Octets) (payload : α), j.decode = .ok e →
        d = e.withPayload payload →
          j.octets = d.signingOctets ++ point :: Base64Url.encode d.signature := by
  refine ⟨verify_ecdsa_eq_ok_true_iff, ?_, ?_⟩
  · intro hunusable hverify
    exact (verify_ecdsa_eq_ok_true_iff.1 hverify).not_unusable hunusable
  · rintro j e payload hj rfl
    exact octets_of_decode hj

/-- An empty payload, signed with the secret number one. -/
def signedText : Octets :=
  Octets.ofText ("eyJhbGciOiJFUzI1NiJ9..eLO63RIHm78bFbz5LnIpTWBgbvSEqQQGhinBg8XujxX5jg6D" ++
    "PvdEqpRD8kV9o1D1g3cUl5qliCxjSO95wGLjcw")

/-- The JWS verifies under the generator, which is the point of the secret number one, and not under
a key that has the same coordinates and names another curve. -/
theorem authentic_signedText :
    ∃ j d, ofOctets? signedText = some j ∧ j.decode = .ok d ∧
      d.verify SignatureCheck.ecdsa (.cut Curve.generator256 32) = .ok true ∧
      d.Authentic (.cut Curve.generator256 32) ∧
      j.octets = d.signingOctets ++ point :: Base64Url.encode d.signature ∧
      d.verify SignatureCheck.ecdsa { Jwk.cut Curve.generator256 32 with curve := some "P-384" } ≠
        .ok true := by
  have hrun : ((ofOctets? signedText).bind fun j => j.decode.toOption.bind fun d =>
      (d.verify SignatureCheck.ecdsa (.cut Curve.generator256 32)).toOption.map fun verified =>
        (d.header.algorithm, verified)) = some (.es256, true) := by
    decide +kernel
  simp only [Option.bind_eq_some_iff, Option.map_eq_some_iff, toOption_eq_some_iff,
    Prod.mk.injEq] at hrun
  obtain ⟨j, hj, d, hd, _, hverify, halgorithm, rfl⟩ := hrun
  have hother : d.Unusable { Jwk.cut Curve.generator256 32 with curve := some "P-384" } := by
    apply Unusable.curve
    rw [halgorithm]
    decide
  obtain ⟨hiff, -, hoctets⟩ := verify_iff_authentic d (.cut Curve.generator256 32)
  exact ⟨j, d, hj, hd, hverify, hiff.1 hverify, hoctets j d d.payload hd rfl,
    (verify_iff_authentic d _).2.1 hother⟩

end Jws.Decoded

end SelectiveDisclosure
