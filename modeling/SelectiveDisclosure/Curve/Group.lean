import SelectiveDisclosure.Curve.Basic

/-!
# The group of a curve

Points in homogeneous coordinates: `(x : y : z)` is `(x / z, y / z)`, and `(0 : 1 : 0)` is the
neutral point. One formula adds any two points, equal ones included, on a curve of odd order.
-/

set_option autoImplicit false

namespace SelectiveDisclosure.Curve

structure Homogeneous where
  x : Nat
  y : Nat
  z : Nat

namespace Homogeneous

def neutral : Homogeneous := ⟨0, 1, 0⟩

def add (c : Curve) (u v : Homogeneous) : Homogeneous :=
  let p := c.p
  let mul := Modular.mul p
  let plus := Modular.add p
  let minus := Modular.sub p
  let a := p - 3
  let b3 := 3 * c.b % p
  let xx := mul u.x v.x
  let yy := mul u.y v.y
  let zz := mul u.z v.z
  let xy := plus (mul u.x v.y) (mul v.x u.y)
  let xz := plus (mul u.x v.z) (mul v.x u.z)
  let yz := plus (mul u.y v.z) (mul v.y u.z)
  let common := plus (mul a xz) (mul b3 zz)
  let low := minus yy common
  let high := plus yy common
  let tripled := plus (plus xx (plus xx xx)) (mul a zz)
  let mixed := plus (mul a (minus xx (mul a zz))) (mul b3 xz)
  ⟨minus (mul xy low) (mul yz mixed),
    plus (mul tripled mixed) (mul high low),
    plus (mul yz high) (mul xy tripled)⟩

def multiple (c : Curve) (n : Nat) (u : Homogeneous) : Homogeneous :=
  (Modular.bits (8 * c.octets) n).foldl
    (fun r b => if b then add c (add c r r) u else add c r r) neutral

def affine? (c : Curve) (u : Homogeneous) : Option (Nat × Nat) :=
  if u.z = 0 then none
  else
    let z := Modular.inverse c.p u.z
    some (Modular.mul c.p u.x z, Modular.mul c.p u.y z)

end Homogeneous

def generator (c : Curve) : Homogeneous :=
  ⟨c.generatorX, c.generatorY, 1⟩

def PublicKey.point {c : Curve} (k : c.PublicKey) : Homogeneous :=
  ⟨k.x, k.y, 1⟩

def SecretKey.publicKey? {c : Curve} (k : c.SecretKey) : Option c.PublicKey := do
  let (x, y) ← (Homogeneous.multiple c k.multiplier c.generator).affine? c
  c.publicKey? x y

end SelectiveDisclosure.Curve
