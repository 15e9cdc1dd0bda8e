import SelectiveDisclosure.Hash.Sha2

/-!
# Keyed hashing

The message is hashed behind the key with one pad, and the result behind the key with the other.
-/

set_option autoImplicit false

namespace SelectiveDisclosure

structure HashFunction where
  block : Nat
  size : Nat
  hash : Octets → Octets

namespace HashFunction

def sha256 : HashFunction := ⟨64, 32, Sha2.sha256⟩

def sha384 : HashFunction := ⟨128, 48, Sha2.sha384⟩

def hmac (f : HashFunction) (key message : Octets) : Octets :=
  let key := if f.block < key.length then f.hash key else key
  let key := key ++ List.replicate (f.block - key.length) 0
  f.hash (key.map (· ^^^ 0x5c) ++ f.hash (key.map (· ^^^ 0x36) ++ message))

end HashFunction
end SelectiveDisclosure
