import SelectiveDisclosure.Curve.Group

/-!
# Signatures on a curve

The secret number of a signature is drawn from the secret key and the hash of the message, so a
key signs a message in one way only. A signature is `r` and `s` at full length behind each other.
-/

set_option autoImplicit false

namespace SelectiveDisclosure.Curve

def hashed (c : Curve) (message : Octets) : Nat :=
  Octets.toNat (c.hash.hash message) % c.order

structure Draw where
  key : Octets
  value : Octets

namespace Draw

def advance (f : HashFunction) (mark : Octets) (d : Draw) : Draw :=
  let key := f.hmac d.key (d.value ++ mark)
  ⟨key, f.hmac key d.value⟩

def seeded (f : HashFunction) (seed : Octets) : Draw :=
  let start : Draw := ⟨List.replicate f.size 0, List.replicate f.size 1⟩
  (start.advance f (0 :: seed)).advance f (1 :: seed)

end Draw

/-- The first number below the order that is not zero and that the attempt accepts. Almost every
first number is taken. -/
def firstAccepted {α : Type} (c : Curve) (attempt : Nat → Option α) : Nat → Draw → Option α
  | 0, _ => none
  | tries+1, d =>
    let value := c.hash.hmac d.key d.value
    let k := Octets.toNat value
    match if 0 < k ∧ k < c.order then attempt k else none with
    | some a => some a
    | none => firstAccepted c attempt tries (Draw.advance c.hash [0] ⟨d.key, value⟩)

def signWith? (c : Curve) (k : c.SecretKey) (z number : Nat) : Option (Nat × Nat) := do
  let (x, _) ← (Homogeneous.multiple c number c.generator).affine? c
  let r := x % c.order
  let s := Modular.mul c.order (Modular.inverse c.order number) (z + r * k.multiplier)
  if r = 0 ∨ s = 0 then none else some (r, s)

def sign? (c : Curve) (k : c.SecretKey) (message : Octets) : Option Octets := do
  let z := c.hashed message
  let seed := Octets.ofNat c.octets k.multiplier ++ c.hash.hash message
  let (r, s) ← c.firstAccepted (c.signWith? k z) 256 (.seeded c.hash seed)
  return Octets.ofNat c.octets r ++ Octets.ofNat c.octets s

def verifyPair (c : Curve) (k : c.PublicKey) (z r s : Nat) : Bool :=
  let inverse := Modular.inverse c.order s
  let u := Homogeneous.multiple c (Modular.mul c.order z inverse) c.generator
  let v := Homogeneous.multiple c (Modular.mul c.order r inverse) k.point
  match (u.add c v).affine? c with
  | some (x, _) => x % c.order == r
  | none => false

/-- Octets of another length, or numbers outside the order, are no signature. -/
def verify (c : Curve) (k : c.PublicKey) (message signature : Octets) : Bool :=
  let r := Octets.toNat (signature.take c.octets)
  let s := Octets.toNat (signature.drop c.octets)
  if signature.length = 2 * c.octets ∧ 0 < r ∧ r < c.order ∧ 0 < s ∧ s < c.order then
    c.verifyPair k (c.hashed message) r s
  else false

end SelectiveDisclosure.Curve
