/-!
# Arithmetic modulo a number

Residues are kept below the modulus.
-/

set_option autoImplicit false

namespace SelectiveDisclosure.Modular

def add (m x y : Nat) : Nat := (x + y) % m

def sub (m x y : Nat) : Nat := (x + (m - y % m)) % m

def mul (m x y : Nat) : Nat := x * y % m

def bits (width n : Nat) : List Bool :=
  (List.range width).reverse.map n.testBit

def pow (m x e : Nat) : Nat :=
  (bits (e.log2 + 1) e).foldl (fun r b => if b then mul m (mul m r r) x else mul m r r) (1 % m)

def inverse (m x : Nat) : Nat :=
  pow m x (m - 2)

end SelectiveDisclosure.Modular
