import SelectiveDisclosure.Curve.Modular
import SelectiveDisclosure.Hash.Hmac

/-!
# Elliptic curves of prime order

A curve `y² = x³ - 3x + b` over the integers modulo a prime, with a generator of prime order. A
public key is a finite point of the curve, a secret key a multiplier from one up to the order.
-/

set_option autoImplicit false

namespace SelectiveDisclosure

structure Curve where
  name : String
  octets : Nat
  p : Nat
  b : Nat
  generatorX : Nat
  generatorY : Nat
  order : Nat
  /-- Signatures on this curve sign the hash of the message. -/
  hash : HashFunction

namespace Curve

def p256 : Curve where
  name := "P-256"
  octets := 32
  p := 0xffffffff00000001000000000000000000000000ffffffffffffffffffffffff
  b := 0x5ac635d8aa3a93e7b3ebbd55769886bc651d06b0cc53b0f63bce3c3e27d2604b
  generatorX := 0x6b17d1f2e12c4247f8bce6e563a440f277037d812deb33a0f4a13945d898c296
  generatorY := 0x4fe342e2fe1a7f9b8ee7eb4a7c0f9e162bce33576b315ececbb6406837bf51f5
  order := 0xffffffff00000000ffffffffffffffffbce6faada7179e84f3b9cac2fc632551
  hash := .sha256

def p384 : Curve where
  name := "P-384"
  octets := 48
  p := 0xfffffffffffffffffffffffffffffffffffffffffffffffffffffffffffffffeffffffff0000000000000000ffffffff
  b := 0xb3312fa7e23ee7e4988e056be3f82d19181d9c6efe8141120314088f5013875ac656398d8a2ed19d2a85c8edd3ec2aef
  generatorX := 0xaa87ca22be8b05378eb1c71ef320ad746e1d3b628ba79b9859f741e082542a385502f25dbf55296c3a545e3872760ab7
  generatorY := 0x3617de4a96262c6f5d9e98bf9292dc29f8f41dbd289a147ce9da3113b5f0b8c00a60b1ce1d7e819d7a431d7c90ea0e5f
  order := 0xffffffffffffffffffffffffffffffffffffffffffffffffc7634d81f4372ddf581a0db248b0a77aecec196accc52973
  hash := .sha384

def right (c : Curve) (x : Nat) : Nat :=
  Modular.add c.p (Modular.sub c.p (x * x * x) (3 * x)) c.b

def Contains (c : Curve) (x y : Nat) : Prop :=
  x < c.p ∧ y < c.p ∧ Modular.mul c.p y y = c.right x

instance (c : Curve) (x y : Nat) : Decidable (c.Contains x y) :=
  inferInstanceAs (Decidable (_ ∧ _))

structure PublicKey (c : Curve) where
  x : Nat
  y : Nat
  onCurve : c.Contains x y
  deriving DecidableEq

structure SecretKey (c : Curve) where
  multiplier : Nat
  inRange : 0 < multiplier ∧ multiplier < c.order
  deriving DecidableEq

def publicKey? (c : Curve) (x y : Nat) : Option c.PublicKey :=
  if h : c.Contains x y then some ⟨x, y, h⟩ else none

/-- Reads a 4 and the two coordinates behind it; only the length of all counts. -/
def decodePublicKey? (c : Curve) (bs : Octets) : Option c.PublicKey :=
  match bs with
  | 4 :: r =>
    if r.length = 2 * c.octets then
      c.publicKey? (Octets.toNat (r.take c.octets)) (Octets.toNat (r.drop c.octets))
    else none
  | _ => none

/-- Reads a big-endian number that is no longer than a coordinate and not under 24 octets. -/
def decodeSecretKey? (c : Curve) (bs : Octets) : Option c.SecretKey :=
  if 24 ≤ bs.length ∧ bs.length ≤ c.octets then
    let n := Octets.toNat bs
    if h : 0 < n ∧ n < c.order then some ⟨n, h⟩ else none
  else none

end Curve
end SelectiveDisclosure
