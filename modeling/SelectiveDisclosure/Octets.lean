/-!
# Octet strings

Compact tokens, digests and signatures are lists of octets. Text becomes octets as UTF-8. The
symbols of a compact token are ASCII, so there an octet and a character are the same thing.
-/

set_option autoImplicit false

namespace SelectiveDisclosure

abbrev Octets := List UInt8

namespace Octets

def ofText (s : String) : Octets :=
  s.toByteArray.data.toList

def text? (bs : Octets) : Option String :=
  String.fromUTF8? ⟨bs.toArray⟩

theorem text?_ofText (s : String) : text? (ofText s) = some s := by
  simp [text?, ofText, String.fromUTF8?, String.fromUTF8, s.isValidUTF8]

def ascii (bs : Octets) : String :=
  String.ofList (bs.map fun b => Char.ofNat b.toNat)

/-- The `width` low octets of a number, highest first. -/
def ofNat : (width : Nat) → (n : Nat) → Octets
  | 0, _ => []
  | k+1, n => ofNat k (n / 256) ++ [UInt8.ofNat n]

def toNat (bs : Octets) : Nat :=
  bs.foldl (fun n b => 256 * n + b.toNat) 0

theorem length_ofNat (width n : Nat) : (ofNat width n).length = width := by
  induction width generalizing n with
  | zero => rfl
  | succ k ih => simp [ofNat, ih]

end Octets
end SelectiveDisclosure
